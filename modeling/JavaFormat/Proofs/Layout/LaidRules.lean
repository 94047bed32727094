import JavaFormat.Proofs.Layout.LaidPieces
import JavaFormat.Proofs.Layout.TypeDeclaration

/-!
# Every rule keeps its words apart

A rule puts its children together with spaces, breaks and tokens of its own. Wherever it puts
nothing between two of them, one is a token that fuses with nothing: a delimiter, a separator,
the dot of a call, or the semicolon behind a member. The operator of a unary expression is
the one word that looks ahead.
-/

namespace JavaFormat.Layout

open Doc

variable {letters : Char → Bool}

/-- A node without comments whose children keep their words apart. -/
structure Site.Apart (letters : Char → Bool) (s : Site) : Prop where
  nodes : s.children.map Piece.node = s.node.children
  children : ∀ p ∈ s.children, p.Apart letters
  comments : s.comments = {}

variable {s : Site} {p : Piece} {ps : List Piece}

/-- Documents each of which sets its words. -/
abbrev Rows (letters : Char → Bool) : List Doc → List (List Word) → Prop :=
  List.Forall₂ (Sets letters)

/-- The documents of several pieces. -/
theorem apart_docs (h : ∀ p ∈ ps, p.Apart letters) :
    Ensures (docs ps) (Rows letters · (ps.map fun p => p.node.words)) := by
  refine ensures_mapM_forall₂ ?_
  rw [List.forall₂_map_right_iff, List.forall₂_same]
  exact fun p hp => (h p hp).doc

/-- Documents with a gap between any two of them. -/
theorem Rows.interleave {e : Doc} (he : ∀ b, Lays letters b e [] none) {ds : List Doc}
    {wss : List (List Word)} (h : Rows letters ds wss) {b : Option Word}
    (hb : Joins letters b wss.flatten) : SetsAll letters b (interleave e ds) wss.flatten := by
  induction h generalizing b with
  | nil => exact .nil
  | @cons d ws ds wss hd hds ih =>
    have hfirst := hd b hb.left
    cases ds with
    | nil =>
      cases hds
      exact .cons hfirst .nil
    | cons f fs => exact .cons hfirst (.gap (he _) (ih joins_none))

/-- Rows joined with a separator that lays out nothing keep their words apart. -/
theorem Rows.join {e : Doc} (he : ∀ b, Lays letters b e [] none) {ds : List Doc}
    {wss : List (List Word)} (h : Rows letters ds wss) : Sets letters (join e ds) wss.flatten :=
  sets_cat fun _ hb => h.interleave he hb

/-- Documents that go on with a line stand one after the other. -/
theorem setsAll_of_follows {ds : List Doc} {wss : List (List Word)}
    (h : List.Forall₂ (Follows letters) ds wss) (b : Option Word) :
    SetsAll letters b ds wss.flatten := by
  induction h generalizing b with
  | nil => exact .nil
  | cons hd _ ih => exact .cons (hd b) (ih _)

/-- Documents that are each put behind a gap. -/
theorem Rows.follow {f : Doc → Doc} (hf : ∀ d ws, Sets letters d ws → Follows letters (f d) ws)
    {ds : List Doc} {wss : List (List Word)} (h : Rows letters ds wss) :
    List.Forall₂ (Follows letters) (ds.map f) wss := by
  induction h with
  | nil => exact .nil
  | cons hd _ ih => exact .cons (hf _ _ hd) ih

/-- A token that nothing fuses with, and what follows it. -/
theorem SetsAll.token {b : Option Word} {text : String} {ds : List Doc} {ws : List Word}
    (h : Text.standsOff text = true) (hds : SetsAll letters (some ⟨text, false⟩) ds ws) :
    SetsAll letters b (.text text :: ds) (⟨text, false⟩ :: ws) :=
  SetsAll.text (w := ⟨text, false⟩) (fun _ _ => Word.fuses_of_standsOff h) hds

/-! ## Lists between delimiters -/

/-- Documents that set the words `ws` once a separator is put between any two of them. -/
inductive Itemized (letters : Char → Bool) (separator : String) : List Doc → List Word → Prop
  | last {d ws} (hd : Sets letters d ws) (hne : ws ≠ []) : Itemized letters separator [d] ws
  | more {d ds ws ws'} (hd : Sets letters d ws) (hne : ws ≠ [])
    (h : Itemized letters separator ds ws') :
    Itemized letters separator (d :: ds) (ws ++ ⟨separator, false⟩ :: ws')

namespace Itemized

variable {separator : String} {ds : List Doc} {ws : List Word} {b : Option Word}

/-- A list of items has an item. -/
theorem ne_nil (h : Itemized letters separator ds ws) : ds ≠ [] := by
  cases h <;> simp

/-- A list of items has a word. -/
theorem words_ne_nil (h : Itemized letters separator ds ws) : ws ≠ [] := by
  cases h with
  | last _ hne => exact hne
  | more _ _ _ => simp

/-- A separator and a gap go between any two items. -/
theorem interleave {e : Doc} (he : ∀ b, Lays letters b e [⟨separator, false⟩] none)
    (h : Itemized letters separator ds ws) (hb : Joins letters b ws) :
    SetsAll letters b (interleave e ds) ws := by
  induction h generalizing b with
  | last hd _ => simpa [Doc.interleave] using SetsAll.cons (hd b hb) .nil
  | @more d ds ws ws' hd _ h ih =>
    cases ds with
    | nil => exact absurd rfl h.ne_nil
    | cons f fs => exact .cons (hd b hb.left) (.mark (he _) (ih joins_none))

/-- In a fill, a separator stays with the item in front of it. -/
theorem fillParts (hs : Text.standsOff separator = true) (h : Itemized letters separator ds ws)
    (hb : Joins letters b ws) : SetsAll letters b (fillParts separator ds) ws := by
  induction h generalizing b with
  | last hd _ => simpa [Layout.fillParts] using SetsAll.cons (hd b hb) .nil
  | @more d ds ws ws' hd _ h ih =>
    cases ds with
    | nil => exact absurd rfl h.ne_nil
    | cons f fs =>
      have hitem : SetsAll letters b [d, .text separator] (ws ++ [⟨separator, false⟩]) :=
        .cons (hd b hb.left) (.token hs .nil)
      have hall := SetsAll.cons hitem.cat (.gap lays_space (ih joins_none))
      rwa [List.append_assoc, List.singleton_append] at hall

/-- Grouping the last item changes nothing that is shown. -/
theorem groupLast (h : Itemized letters separator ds ws) :
    Itemized letters separator (groupLast ds) ws := by
  induction h with
  | @last d ws hd hne =>
    refine .last (sets_grouped fun b hb => ?_) hne
    simpa using SetsAll.cons (hd b hb) .nil
  | @more d ds ws ws' hd hne h ih =>
    cases ds with
    | nil => exact absurd rfl h.ne_nil
    | cons f fs => exact .more hd hne ih

end Itemized

/-- The separators of a list come back with its items, but for one behind the last. -/
theorem apart_itemized {separator : String} {closed : Bool} {ts : List Tree}
    (h : Shape.Separated separator closed ts) {ps : List Piece} (hn : ps.map Piece.node = ts)
    (hp : ∀ p ∈ ps, p.Apart letters) :
    ∃ ws, wordsOf ps = ws ++ (if closed then [⟨separator, false⟩] else []) ∧
      Ensures (docs (ps.filter (·.node.isNamed))) (Itemized letters separator · ws) := by
  induction h generalizing ps with
  | @single t ht =>
    obtain ⟨p, rfl, rfl⟩ := List.map_eq_singleton_iff.mp hn
    have hp := hp p (by simp)
    have hfilter : [p].filter (·.node.isNamed) = [p] := by simp [ht]
    refine ⟨p.node.words, by simp, ?_⟩
    rw [hfilter, docs, List.mapM_cons, List.mapM_nil]
    exact hp.doc.bind fun d hd => .pure (.last hd hp.words_ne_nil)
  | @closed t u ht hu =>
    obtain ⟨p, rest, rfl, rfl, hrest⟩ := List.map_eq_cons_iff.mp hn
    obtain ⟨q, rfl, rfl⟩ := List.map_eq_singleton_iff.mp hrest
    have hp := hp p (by simp)
    have hq := Tree.isNamed_of_isToken hu
    have hfilter : [p, q].filter (·.node.isNamed) = [p] := by simp [ht, hq]
    refine ⟨p.node.words, by simp [Tree.words_of_isToken hu], ?_⟩
    rw [hfilter, docs, List.mapM_cons, List.mapM_nil]
    exact hp.doc.bind fun d hd => .pure (.last hd hp.words_ne_nil)
  | @more closed t u ts ht hu _ ih =>
    obtain ⟨p, rest, rfl, rfl, hrest⟩ := List.map_eq_cons_iff.mp hn
    obtain ⟨q, qs, rfl, rfl, rfl⟩ := List.map_eq_cons_iff.mp hrest
    obtain ⟨ws, hws, hds⟩ := ih rfl fun r hr => hp r (by simp [hr])
    have hp := hp p (by simp)
    have hq := Tree.isNamed_of_isToken hu
    have hfilter : (p :: q :: qs).filter (·.node.isNamed) = p :: qs.filter (·.node.isNamed) := by
      simp [ht, hq]
    refine ⟨p.node.words ++ ⟨separator, false⟩ :: ws, ?_, ?_⟩
    · simp [Tree.words_of_isToken hu, hws]
    · rw [hfilter, docs, List.mapM_cons]
      exact hp.doc.bind fun d hd => hds.bind fun ds hds => .pure (.more hd hp.words_ne_nil hds)

/-- Delimiters and a separator that fuse with nothing. -/
structure ListStyle.Sane (style : ListStyle) : Prop where
  opening : Text.closesOff style.opening = true
  separator : Text.standsOff style.separator = true
  closing : Text.standsOff style.closing = true

/-- A document between two delimiters. -/
theorem sets_between {opening closing : String} (ho : Text.closesOff opening = true)
    (hc : Text.standsOff closing = true) {d : Doc} {ws : List Word} (hd : Sets letters d ws) :
    Sets letters (cat [.text opening, d, .text closing])
      (⟨opening, false⟩ :: (ws ++ [⟨closing, false⟩])) :=
  sets_cat fun _ hb => .text (joins_cons.mp hb) (.cons (hd _ (joins_of_closesOff rfl ho))
    (.token hc .nil))

/-- A document between two delimiters that may have a line each. -/
theorem sets_framed {opening closing : String} (ho : Text.closesOff opening = true)
    (hc : Text.standsOff closing = true) (padded : Bool) {d : Doc} {ws : List Word}
    (hd : Sets letters d ws) (hne : ws ≠ []) :
    Sets letters (grouped [.text opening, indented [if padded then space else softline, d],
      if padded then space else softline, .text closing])
      (⟨opening, false⟩ :: (ws ++ [⟨closing, false⟩])) := by
  have hedge : ∀ b, ∃ c, Lays letters b (if padded then space else softline) [] c ∧
      (c = none ∨ c = b) := by
    intro b
    split
    · exact ⟨none, lays_space, .inl rfl⟩
    · exact ⟨b, lays_softline, .inr rfl⟩
  have hinside : SetsAll letters (some ⟨opening, false⟩)
      [if padded then space else softline, d] ws := by
    obtain ⟨c, hedge, hcases⟩ := hedge (some ⟨opening, false⟩)
    have hjoins : Joins letters c ws := by
      rcases hcases with rfl | rfl
      · exact joins_none
      · exact joins_of_closesOff rfl ho
    refine .separated hedge ?_ hne
    simpa using SetsAll.cons (hd c hjoins) .nil
  obtain ⟨c, hedge, -⟩ := hedge (after (some ⟨opening, false⟩) ws)
  have hclose : SetsAll letters c [.text closing] [⟨closing, false⟩] :=
    .token hc .nil
  exact sets_grouped fun b hb => .text (joins_cons.mp hb)
    (.cons hinside.indented (.separated hedge hclose (by simp)))

/-- Nothing is shown of no comments. -/
theorem sets_danglingInline : Sets letters (NodeComments.danglingInline {}) [] :=
  sets_cat fun _ _ => .nil

/-- A separator with a gap behind it. -/
theorem lays_separator {separator : String} (hs : Text.standsOff separator = true)
    (b : Option Word) :
    Lays letters b (cat [.text separator, space]) [⟨separator, false⟩] none := by
  have hword : Lays letters b (.text separator) [⟨separator, false⟩] (some ⟨separator, false⟩) :=
    lays_text (w := ⟨separator, false⟩) fun _ _ => Word.fuses_of_standsOff hs
  exact (LaysAll.cons hword (.single lays_space)).cat

/-- A comma with a space behind it. -/
theorem lays_comma (b : Option Word) : Lays letters b (.text ", ") [⟨",", false⟩] none :=
  lays_text_blank (w := ⟨",", false⟩) fun _ _ => Word.fuses_of_standsOff (by decide)

namespace Site.Apart

/-- The named children of a site keep their words apart. -/
theorem named (h : s.Apart letters) : ∀ p ∈ s.named, p.Apart letters :=
  fun p hp => h.children p (List.mem_of_mem_filter hp)

/-- The children of a list are its delimiters around nothing, or around items with separators
between them. -/
theorem children_delimited (h : s.Apart letters) {opening closing separator : String}
    {closable : Bool} (hs : Shape.Delimited opening closing separator closable s.node.children) :
    ∃ ps, wordsOf s.children = ⟨opening, false⟩ :: (wordsOf ps ++ [⟨closing, false⟩]) ∧
      s.named = ps.filter (·.node.isNamed) ∧ (∀ p ∈ ps, p.Apart letters) ∧
      (ps = [] ∨ ∃ closed ≤ closable, Shape.Separated separator closed (ps.map Piece.node) ∧
        hasTrailingSeparator s.node separator = closed) := by
  obtain ⟨first, ps, last, hc, hopen, hclose, hnamed, hbody⟩ := Site.exists_delimited h.nodes hs
  refine ⟨ps, ?_, hnamed, fun p hp => h.children p (by simp [hc, hp]), hbody⟩
  rw [hc]
  simp [Tree.words_of_isToken hopen, Tree.words_of_isToken hclose]

/-- A list keeps its items apart from its separators and delimiters. -/
theorem delimited (h : s.Apart letters) {style : ListStyle} (hstyle : style.Sane) {closable : Bool}
    (hs : Shape.Delimited style.opening style.closing style.separator closable s.node.children) :
    Ensures (s.delimited style) (Sets letters · (wordsOf s.children)) := by
  obtain ⟨ps, hwords, hnamed, hps, hbody⟩ := h.children_delimited hs
  rw [hwords, Site.delimited, h.comments]
  rcases hbody with rfl | ⟨closed, -, hseparated, htrailing⟩
  · rw [hnamed]
    exact .pure (sets_between hstyle.opening hstyle.closing sets_danglingInline)
  · obtain ⟨ws, hws, hdocs⟩ := apart_itemized hseparated rfl hps
    have hne : s.named.isEmpty = false := by
      rw [hnamed, List.isEmpty_eq_false_iff]
      exact filter_isNamed_ne_nil hseparated
    rw [if_neg (by simp [hne]), hnamed, htrailing]
    refine hdocs.bind fun ds hds => .pure ?_
    have hlisted : Sets letters (listBody style (ps.filter (·.node.isNamed)) ds) ws := by
      unfold listBody
      split
      · exact fun b hb => (hds.fillParts hstyle.separator hb).fill
      · exact sets_cat fun b hb => hds.interleave (lays_separator hstyle.separator) hb
    have hclosed : Sets letters (if closed then
        cat [listBody style (ps.filter (·.node.isNamed)) ds, .text style.separator]
        else listBody style (ps.filter (·.node.isNamed)) ds) (wordsOf ps) := by
      rw [hws]
      cases closed with
      | false => simpa using hlisted
      | true =>
        exact sets_cat fun b hb => .cons (hlisted b hb.left)
          (.token hstyle.separator .nil)
    refine sets_framed hstyle.opening hstyle.closing style.padded hclosed ?_
    rw [hws]
    simp [hds.words_ne_nil]

/-- Type arguments keep apart from their separators. -/
theorem typeArguments (h : s.Apart letters)
    (hs : Shape.Delimited "<" ">" "," false s.node.children) :
    Ensures s.typeArguments (Sets letters · (wordsOf s.children)) := by
  obtain ⟨ps, hwords, hnamed, hps, hbody⟩ := h.children_delimited hs
  rw [hwords, Site.typeArguments, hnamed, h.comments]
  rcases hbody with rfl | ⟨closed, hclosed, hseparated, -⟩
  · exact .pure (sets_between (by decide) (by decide) sets_danglingInline)
  · obtain ⟨ws, hws, hdocs⟩ := apart_itemized hseparated rfl hps
    have hclosed : closed = false := Bool.eq_false_of_le_false hclosed
    have hws : wordsOf ps = ws := by simpa [hclosed] using hws
    refine hdocs.bind fun ds hds => ?_
    rw [if_neg (by simpa [List.isEmpty_iff] using filter_isNamed_ne_nil hseparated), hws]
    have hjoined : Sets letters (join (.text ", ") ds) ws :=
      sets_cat fun b hb => hds.interleave lays_comma hb
    exact .pure (sets_between (by decide) (by decide) hjoined)

/-- Arguments keep apart in both states of the choice. -/
theorem arguments (h : s.Apart letters) (hs : Shape.Delimited "(" ")" "," false s.node.children) :
    Ensures s.arguments (Sets letters · (wordsOf s.children)) := by
  have hstyle : ListStyle.parenthesized.Sane := ⟨by decide, by decide, by decide⟩
  have hlisted := h.delimited hstyle hs
  have hugs : Ensures (hugsLast s.named) fun hugs => hugsLast s.named = .ok hugs := fun _ hh => hh
  refine hugs.bind fun hugs hhugs => ?_
  cases hugs with
  | false => exact hlisted
  | true =>
    obtain ⟨ps, hwords, hnamed, hps, hbody⟩ := h.children_delimited hs
    rcases hbody with rfl | ⟨closed, hclosed, hseparated, -⟩
    · rw [hnamed] at hhugs
      cases hhugs
    · obtain ⟨ws, hws, hdocs⟩ := apart_itemized hseparated rfl hps
      have hclosed : closed = false := Bool.eq_false_of_le_false hclosed
      have hws : wordsOf ps = ws := by simpa [hclosed] using hws
      rw [← hnamed] at hdocs
      rw [if_pos rfl]
      refine hdocs.bind fun ds hds => hlisted.bind fun listed hlisted => .pure ?_
      have hjoined : Sets letters (join (.text ", ") (groupLast ds)) ws :=
        sets_cat fun b hb => hds.groupLast.interleave lays_comma hb
      have hhugged : Sets letters (cat [.text "(", join (.text ", ") (groupLast ds), .text ")"])
          (⟨"(", false⟩ :: (ws ++ [⟨")", false⟩])) :=
        sets_between (by decide) (by decide) hjoined
      rw [hwords, hws] at hlisted ⊢
      exact fun b hb => (hhugged b hb).choice (hlisted b hb)

end Site.Apart

/-! ## Members and bodies -/

/-- Members behind another one keep their words apart. -/
theorem apart_membersAfter (source : Source) (gap : Gap) (previous : Tree)
    (h : ∀ p ∈ ps, p.Apart letters) :
    Ensures (membersAfter source gap previous ps) fun ds =>
      ∀ b, SetsAll letters b ds (wordsOf ps) := by
  induction ps generalizing previous with
  | nil => exact .pure fun _ => .nil
  | cons p ps ih =>
    obtain ⟨hp, hps⟩ := List.forall_mem_cons.mp h
    unfold membersAfter
    refine hp.doc.bind fun d hd => ?_
    split
    · rename_i hsemicolon
      refine (ih previous hps).bind fun ds hds => .pure fun b => .cons (hd b ?_) (hds _)
      rw [Tree.words_of_isToken hsemicolon]
      exact joins_of_standsOff (by decide)
    · refine (ih p.node hps).bind fun ds hds => .pure fun b => ?_
      have hmember : ∀ c, SetsAll letters c (hardline :: d :: ds) (wordsOf (p :: ps)) :=
        fun c => .gap lays_hardline (SetsAll.cons hd.free (hds _))
      unfold memberBreak
      split
      · exact .gap lays_hardline (hmember none)
      · exact hmember b

/-- Members, one a line. -/
theorem apart_members (source : Source) (gap : Gap) (h : ∀ p ∈ ps, p.Apart letters) :
    Ensures (members source gap ps) (Sets letters · (wordsOf ps)) := by
  cases ps with
  | nil => exact .pure (sets_cat fun _ _ => .nil)
  | cons p ps =>
    obtain ⟨hp, hps⟩ := List.forall_mem_cons.mp h
    refine hp.doc.bind fun d hd => ?_
    refine (apart_membersAfter source gap p.node hps).bind fun ds hds => .pure ?_
    exact sets_cat fun b hb => .cons (hd b hb.left) (hds _)

/-- A document that stands alone in a list. -/
theorem sets_join_single {e d : Doc} {ws : List Word} (h : Sets letters d ws) :
    Sets letters (join e [d]) ws :=
  sets_cat fun b hb => LaysAll.single (h b hb)

/-- What stands in a body: a document, or nothing and no words. -/
def Holds (letters : Char → Bool) : Option Doc → List Word → Prop
  | none, ws => ws = []
  | some d, ws => Sets letters d ws

/-- Nothing holds no words. -/
theorem holds_none : Holds letters none [] := rfl

/-- A document that lays out words holds them. -/
theorem Sets.holds {d : Doc} {ws : List Word} (h : Sets letters d ws) :
    Holds letters (some d) ws := h

/-- Members, if there are any, keep their words apart. -/
theorem apart_members? (source : Source) (gap : Gap) (h : ∀ p ∈ ps, p.Apart letters) :
    Ensures (members? source gap ps) (Holds letters · (wordsOf ps)) := by
  unfold members?
  split
  · rename_i hempty
    have hnil : ps = [] := by simpa using hempty
    exact .pure (hnil ▸ rfl)
  · exact (apart_members source gap h).map fun d hd => hd

/-- Braces around a body. -/
theorem sets_braces {contents : Option Doc} {ws : List Word} (h : Holds letters contents ws) :
    Sets letters (braces {} contents) (⟨"\x7b", false⟩ :: (ws ++ [⟨"\x7d", false⟩])) := by
  cases contents with
  | none =>
    obtain rfl : ws = [] := h
    exact fun b hb => lays_text_append (v := ⟨"\x7b", false⟩) (w := ⟨"\x7d", false⟩)
      (joins_cons.mp hb) (Word.fuses_of_standsOff (by decide))
  | some d =>
    have hjoined : Sets letters (join hardline [d]) ws := sets_join_single h
    have hinside : SetsAll letters (some ⟨"\x7b", false⟩) [hardline, join hardline [d]] ws := by
      simpa using SetsAll.gap lays_hardline (.cons hjoined.free .nil)
    have hclose : SetsAll letters none [.text "\x7d"] [⟨"\x7d", false⟩] := .token (by decide) .nil
    exact sets_cat fun b hb => .text (joins_cons.mp hb)
      (.cons hinside.indented (.gap lays_hardline hclose))

namespace Site.Apart

/-- The children between the braces keep their words apart. -/
theorem unbraced (h : s.Apart letters) : ∀ p ∈ s.unbraced, p.Apart letters :=
  fun p hp => h.children p (List.mem_of_mem_filter hp)

/-- The children of a body are braces around what is printed between them. -/
theorem children_braced (h : s.Apart letters) {first last : Tree} {items : List Tree}
    (hc : s.node.children = first :: (items ++ [last])) (hopen : first.isToken "\x7b")
    (hclose : last.isToken "\x7d") (hitems : Shape.Unbraced items) :
    s.unbraced.map Piece.node = items ∧
      wordsOf s.children = ⟨"\x7b", false⟩ :: (wordsOf s.unbraced ++ [⟨"\x7d", false⟩]) := by
  obtain ⟨hnodes, f, l, hframe, hopen, hclose⟩ := Site.exists_braced h.nodes hc hopen hclose hitems
  rw [hframe]
  exact ⟨hnodes, by simp [Tree.words_of_isToken hopen, Tree.words_of_isToken hclose]⟩

/-- A body of members between braces. -/
theorem body (h : s.Apart letters) (hs : Shape.Braced s.node.children) (gap : Gap) :
    Ensures (s.body gap) (Sets letters · (wordsOf s.children)) := by
  obtain ⟨first, items, last, hc, hopen, hclose, hitems⟩ := hs
  rw [(h.children_braced hc hopen hclose hitems).2, Site.body, h.comments]
  exact (apart_members? s.source gap h.unbraced).bind fun contents hcontents =>
    .pure (sets_braces hcontents)

/-- A compilation unit. -/
theorem program (h : s.Apart letters) :
    Ensures s.program (Sets letters · (wordsOf s.children)) := by
  unfold Site.program
  rw [h.comments]
  refine (apart_members? s.source Gap.ofProgram h.children).bind fun contents hcontents => ?_
  cases contents with
  | none =>
    have hnone : wordsOf s.children = [] := hcontents
    rw [hnone]
    exact .pure fun b _ => lays_nothing
  | some d =>
    have hjoined : Sets letters (join hardline [d]) (wordsOf s.children) :=
      sets_join_single hcontents
    exact .pure (sets_cat fun b hb =>
      (LaysAll.pair (hjoined b hb) lays_hardline).loosen (by simp))

end Site.Apart

/-- The parts of a fragment. -/
theorem apart_fragmentDoc (parsed : Parsed) (h : ∀ p ∈ ps, p.Apart letters) :
    Ensures (fragmentDoc parsed ps) (Sets letters · (wordsOf ps)) := by
  refine (apart_members parsed.source (fragmentGap parsed.rootParent) h).bind fun d hd => .pure ?_
  exact sets_cat fun b hb => (LaysAll.pair (hd b hb) lays_hardline).loosen (by simp)

/-! ## Declarations of types -/

/-- What a declaration is sorted into: modifiers that keep what is behind them apart, the pieces
of the head, clauses and a body. -/
structure TypeParts.Apart (letters : Char → Bool) (parts : TypeParts) (modifiers : List Word)
    (clauses : List (List Word)) (body : List Word) : Prop where
  modifiers : ∀ b,
    Joins letters b (modifiers ++ (wordsOf parts.head ++ (clauses.flatten ++ body))) →
    ∃ c, LaysAll letters b parts.modifiers modifiers c ∧
      Joins letters c (wordsOf parts.head ++ (clauses.flatten ++ body))
  head : ∀ p ∈ parts.head, p.Apart letters
  clauses : Rows letters parts.clauses clauses
  body : ∃ d, parts.body = some d ∧ Sets letters d body

/-- The children of a declaration without modifiers are sorted into a head, clauses and a body. -/
theorem apart_typeParts_unmodified (kind : NodeKind) {hs ks : List Piece} {body : Piece}
    (hhead : ∀ p ∈ hs, p.kind ≠ .modifiers ∧ p.kind.isHeaderClause = false ∧
      p.kind.isTypeBody = false) (hks : ∀ p ∈ ks, p.Apart letters)
    (hclauses : ∀ p ∈ ks, p.kind.isHeaderClause = true) (hb : body.Apart letters)
    (hbody : body.kind.isTypeBody = true) :
    Ensures (typeParts kind (hs ++ (ks ++ [body]))) fun parts =>
      parts.modifiers = [] ∧ parts.head = hs ∧
        Rows letters parts.clauses (ks.map fun p => p.node.words) ∧
        ∃ d, parts.body = some d ∧ Sets letters d body.node.words := by
  rw [typeParts_unmodified kind hhead hclauses hbody]
  exact (apart_docs hks).bind fun ds hds => hb.doc.bind fun d hd =>
    .pure ⟨rfl, rfl, hds, d, rfl, hd⟩

namespace Site.Apart

/-- Sorting the children of a declaration leaves all of them in place. The separator is chosen for
the piece that comes first behind the modifiers. -/
theorem typeParts (h : s.Apart letters) (hs : Shape.TypeDeclared s.node.children)
    (kind : NodeKind) :
    ∃ ms ks bs, bs ≠ [] ∧ Ensures (typeParts kind s.children) fun parts =>
      parts.Apart letters ms ks bs ∧
        wordsOf s.children = ms ++ (wordsOf parts.head ++ (ks.flatten ++ bs)) := by
  obtain ⟨ms, hs, ks, body, hps, hmodifiers, hhead, hclauses, hbody⟩ :=
    Site.exists_typeDeclared h.nodes hs
  have hall := h.children
  rw [hps] at hall ⊢
  have hlast := hall body (by simp)
  have hheads : ∀ p ∈ hs, p.Apart letters := fun p hp => hall p (by simp [hp])
  have hunmodified := apart_typeParts_unmodified kind hhead
    (fun p hp => hall p (by simp [hp])) hclauses hlast hbody
  have hwords : wordsOf (hs ++ (ks ++ [body])) =
      wordsOf hs ++ ((ks.map fun p => p.node.words).flatten ++ body.node.words) := by
    simp [wordsOf, List.flatMap_def]
  refine ⟨wordsOf ms, ks.map fun p => p.node.words, body.node.words, hlast.words_ne_nil, ?_⟩
  rw [wordsOf_append, hwords]
  rcases hmodifiers with rfl | ⟨p, rfl, hkind⟩
  · refine hunmodified.mono fun parts ⟨hm, hh, hk, hd⟩ => ?_
    obtain rfl := hh
    refine ⟨⟨fun b hb => ⟨b, ?_, hb⟩, hheads, hk, hd⟩, rfl⟩
    rw [hm]
    exact .nil
  · obtain ⟨next, more, hnext⟩ : ∃ next more, hs ++ (ks ++ [body]) = next :: more :=
      List.exists_cons_of_ne_nil (by simp)
    have hfirst : next.Apart letters :=
      hall next (by rw [List.singleton_append, hnext]; simp)
    rw [hnext] at hunmodified ⊢
    rw [List.singleton_append, typeParts_modified _ hkind]
    refine (hall p (by simp)).doc.bind fun d hd => ?_
    refine hunmodified.bind fun parts ⟨hm, hh, hk, hd'⟩ => .pure ?_
    obtain rfl := hh
    refine ⟨⟨fun b hb => ?_, hheads, hk, hd'⟩, rfl⟩
    obtain ⟨c, hgap, hjoins⟩ := exists_separator (p := p) (some kind) Spacing.sane_standard
      (some next.node) hfirst b
    refine ⟨c, ?_, ?_⟩
    · have hfirst : Joins letters b p.node.words := by simpa using hb.left
      rw [hm]
      simpa using LaysAll.cons (hd b hfirst) (.single hgap)
    · rw [← hwords, hnext, wordsOf_cons]
      exact hjoins.extend hfirst.words_ne_nil

/-- The declaration of a type. -/
theorem typeDeclaration (h : s.Apart letters) (hs : Shape.TypeDeclared s.node.children) :
    Ensures s.typeDeclaration (Sets letters · (wordsOf s.children)) := by
  obtain ⟨ms, ks, bs, hne, hparts⟩ := h.typeParts hs s.node.kind
  refine hparts.bind fun parts ⟨⟨hmodifiers, hheads, hclauses, body, hbody, hbs⟩, hwords⟩ => ?_
  rw [hwords]
  refine (apart_sequence s.node.kind Spacing.sane_ofTypeHead hheads).bind fun head hhead => .pure ?_
  have hheader : Sets letters (if parts.clauses.isEmpty then head
      else grouped [head, indented (parts.clauses.map fun clause => cat [space, clause])])
      (wordsOf parts.head ++ ks.flatten) := by
    have hspaced := hclauses.follow fun _ _ hd b => (SetsAll.gap lays_space (.single hd.free)).cat
    cases hempty : parts.clauses with
    | nil =>
      rw [hempty] at hclauses
      cases hclauses
      simpa using hhead
    | cons clause rest =>
      rw [hempty] at hspaced
      exact sets_grouped fun b hb =>
        .cons (hhead b hb.left) (.single (setsAll_of_follows hspaced _).indented)
  rw [hbody, ← List.append_assoc (wordsOf parts.head)]
  refine sets_cat fun b hb => ?_
  rw [← List.append_assoc (wordsOf parts.head)] at hmodifiers
  obtain ⟨c, hms, hjoins⟩ := hmodifiers b hb
  refine .behind hms ?_ (by simp [hne])
  exact .cons (hheader c hjoins.left) (.gap lays_blank (.single hbs.free))

end Site.Apart

/-! ## Enumerations -/

/-- Constants come with the commas behind them; what is declared behind them is left out. -/
theorem apart_enumConstants (source : Source) {current : Option Doc} {vs : List Word}
    (hcurrent : Holds letters current vs) {qs : List Piece} (h : ∀ p ∈ ps, p.Apart letters)
    (hps : ∀ p ∈ ps, p.kind ≠ .enumBodyDeclarations)
    (hqs : ∀ q ∈ qs, q.kind = .enumBodyDeclarations) :
    Ensures (enumConstants source current (ps ++ qs)) fun ds =>
      ∃ wss, Rows letters ds wss ∧ wss.flatten = vs ++ wordsOf ps := by
  induction ps generalizing current vs with
  | nil =>
    rintro ds hds
    rw [List.nil_append, enumConstants_of_declarations source current hqs] at hds
    obtain rfl := Except.ok.inj hds
    cases current with
    | none =>
      obtain rfl : vs = [] := hcurrent
      exact ⟨[], .nil, rfl⟩
    | some d => exact ⟨[vs], .cons hcurrent .nil, by simp⟩
  | cons p ps ih =>
    obtain ⟨hp, hrest⟩ := List.forall_mem_cons.mp h
    obtain ⟨hkind, hkinds⟩ := List.forall_mem_cons.mp hps
    rw [List.cons_append]
    rcases enumConstants_cons source current (ps ++ qs) hkind with
      ⟨d, rfl, hcomma, heq⟩ | ⟨-, heq⟩
    all_goals rw [heq]
    · have hclosed : Holds letters (some (cat [d, .text ","])) (vs ++ [⟨",", false⟩]) :=
        sets_cat fun b hb => .cons (hcurrent b hb.left) (.token (by decide) .nil)
      refine (ih hclosed hrest hkinds).mono ?_
      rintro ds ⟨wss, hrows, hwords⟩
      exact ⟨wss, hrows, by simp [hwords, Tree.words_of_isToken hcomma]⟩
    · refine hp.doc.bind fun d hd => ?_
      have hspaced : Sets letters (if current.isSome && hasBlankLineBefore source p
          then cat [hardline, d] else d) p.node.words := by
        split
        · exact sets_cat fun b _ => .gap lays_hardline (.single hd.free)
        · exact hd
      refine (ih hspaced.holds hrest hkinds).bind ?_
      rintro ds ⟨wss, hrows, hwords⟩
      refine .pure ?_
      cases current with
      | none =>
        obtain rfl : vs = [] := hcurrent
        exact ⟨wss, hrows, by simpa using hwords⟩
      | some c => exact ⟨vs :: wss, .cons hcurrent hrows, by simp [hwords]⟩

/-- What is declared behind the constants of an enumeration begins with a semicolon. -/
theorem Piece.Apart.joins_of_enumDeclarations (h : p.Apart letters)
    (hk : p.kind = .enumBodyDeclarations) (b : Option Word) : Joins letters b p.node.words := by
  have hk : p.node.kind = .enumBodyDeclarations := hk
  have hallowed := h.lexed.regular.allowed (by simp [hk]) (by rw [hk]; rfl)
  rw [hk] at hallowed
  obtain ⟨semicolon, items, hc, hsemicolon⟩ := hallowed
  exact h.joins_of_standsOff (Tree.Lexed.standsOff_of_isToken hc hsemicolon (by decide)) b

namespace Site.Apart

/-- The children of the body of an enumeration: constants and what is declared behind them. -/
theorem children_enumBraced (h : s.Apart letters) (hs : Shape.EnumBraced s.node.children) :
    ∃ ps qs, s.unbraced = ps ++ qs ∧
      wordsOf s.children = ⟨"\x7b", false⟩ :: (wordsOf (ps ++ qs) ++ [⟨"\x7d", false⟩]) ∧
      (∀ p ∈ ps, p.kind ≠ .enumBodyDeclarations) ∧
      (qs = [] ∨ ∃ q, qs = [q] ∧ q.kind = .enumBodyDeclarations) := by
  obtain ⟨ps, qs, hps, hkinds, hdeclared, f, l, hframe, hopen, hclose⟩ :=
    Site.exists_enumBraced h.nodes hs
  refine ⟨ps, qs, hps, ?_, hkinds, hdeclared⟩
  rw [hframe, hps]
  simp [Tree.words_of_isToken hopen, Tree.words_of_isToken hclose]

/-- The body of an enumeration. -/
theorem enumBody (h : s.Apart letters) (hs : Shape.EnumBraced s.node.children) :
    Ensures s.enumBody (Sets letters · (wordsOf s.children)) := by
  obtain ⟨ps, qs, hps, hwords, hkinds, hdeclared⟩ := h.children_enumBraced hs
  have hpieces := h.unbraced
  rw [hps] at hpieces
  have hqs : ∀ q ∈ qs, q.kind = .enumBodyDeclarations := by
    rcases hdeclared with rfl | ⟨q, rfl, hkind⟩
    · simp
    · exact List.forall_mem_singleton.mpr hkind
  rw [hwords, Site.enumBody, hps, h.comments]
  refine (apart_enumConstants s.source holds_none
    (fun p hp => hpieces p (by simp [hp])) hkinds hqs).bind ?_
  rintro ds ⟨wss, hrows, hflatten⟩
  rw [List.nil_append] at hflatten
  have hjoined := hrows.join fun _ => lays_hardline
  rw [hflatten] at hjoined
  rcases hdeclared with rfl | ⟨q, rfl, hkind⟩
  · rw [List.append_nil, find?_declarations hkinds]
    refine .pure (sets_braces ?_)
    cases ds with
    | nil =>
      cases hrows
      exact hflatten.symm
    | cons d ds => exact hjoined
  · have hq := hpieces q (by simp)
    have hfound : (ps ++ [q]).reverse.find? (·.kind == .enumBodyDeclarations) = some q := by
      simp [hkind]
    rw [hfound]
    refine hq.doc.bind fun d hd => .pure ?_
    have hcontents : Sets letters (cat [join hardline ds, d]) (wordsOf (ps ++ [q])) := by
      rw [wordsOf_append, wordsOf_cons, wordsOf_nil, List.append_nil]
      exact sets_cat fun b hb =>
        .cons (hjoined b hb.left) (.single (hd _ (hq.joins_of_enumDeclarations hkind _)))
    exact sets_braces hcontents.holds

/-- What follows the constants of an enumeration. -/
theorem enumDeclarations (h : s.Apart letters)
    (hs : Shape.Allowed .enumBodyDeclarations s.node.children) :
    Ensures s.enumDeclarations (Sets letters · (wordsOf s.children)) := by
  obtain ⟨semicolon, items, hc, hsemicolon⟩ := hs
  rw [← h.nodes] at hc
  obtain ⟨p, ps, hps, rfl, rfl⟩ := List.map_eq_cons_iff.mp hc
  have hmembers := apart_members s.source Gap.ofMembers
    fun q (hq : q ∈ ps) => h.children q (by simp [hps, hq])
  rw [Site.enumDeclarations, hps, List.drop_one, List.tail_cons, wordsOf_cons,
    Tree.words_of_isToken hsemicolon]
  cases ps with
  | nil => exact .pure fun b hb => lays_text (w := ⟨";", false⟩) (joins_cons.mp hb)
  | cons q qs =>
    refine hmembers.bind fun d hd => .pure (sets_cat fun b hb => ?_)
    exact .token (by decide) (.gap lays_hardline (.gap lays_hardline (.single hd.free)))

/-- Dimensions are set off if they begin with an annotation. -/
theorem dimensions (h : s.Apart letters)
    (hmeet : s.children.IsChain (MeetByAnnotations letters)) :
    Ensures s.dimensions (Sets letters · (wordsOf s.children)) := by
  refine (apart_tight h.children hmeet).bind fun d hd => ?_
  split
  · exact .pure (sets_cat fun b _ => .gap lays_blank (.single hd.free))
  · exact .pure hd

end Site.Apart

/-! ## Modifiers -/

/-- Modifiers, each with a gap behind it. -/
theorem apart_modifierParts (owner : Option NodeKind) (h : ∀ p ∈ ps, p.Apart letters) :
    Ensures (modifierParts owner [] ps) fun ds => ∀ b, Joins letters b (wordsOf ps) →
      SetsAll letters b ds (wordsOf ps) := by
  induction ps with
  | nil => exact .pure fun _ _ => .nil
  | cons p ps ih =>
    obtain ⟨hp, hps⟩ := List.forall_mem_cons.mp h
    unfold modifierParts
    refine hp.doc.bind fun d hd => (ih hps).bind fun ds hds => .pure fun b hb => ?_
    have hfirst := hd b hb.left
    cases ps with
    | nil => exact .cons hfirst (hds _ (by simp [Joins]))
    | cons q qs =>
      have hgap : SetsAll letters (after b p.node.words)
          (modifierBreak owner p [] (some q.node) ++ ds) (wordsOf (q :: qs)) := by
        unfold modifierBreak
        dsimp only
        split
        · exact .gap lays_hardline (hds none joins_none)
        · exact .gap lays_blank (hds none joins_none)
      exact .cons hfirst hgap

namespace Site.Apart

/-- A list of modifiers. -/
theorem modifiers (h : s.Apart letters) :
    Ensures s.modifiers (Sets letters · (wordsOf s.children)) := by
  unfold Site.modifiers
  rw [h.comments]
  exact (apart_modifierParts s.parent h.children).bind fun ds hds => .pure (sets_cat hds)

end Site.Apart

end JavaFormat.Layout
