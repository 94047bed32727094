import JavaFormat.Proofs.Layout.FirmRules
import JavaFormat.Proofs.Layout.Sites
import JavaFormat.Proofs.Layout.SpotPieces

/-!
# Rules and the line breaks that they fix

A rule that looks at no line of the source fixes no line break. The rules for bodies fix how
many there are in front of a member: two if there is a blank line above it in the source, or if
it is spacious, and otherwise one. Constants are kept apart likewise. Behind an annotation there
is a break just if there is one in the source.
-/

namespace JavaFormat.Layout

open Doc

variable {spots : Piece → List Spot}

/-- No comments stand between a piece and a stray semicolon behind it. -/
def Piece.AdmitsSemicolon (p q : Piece) : Prop :=
  q.isToken ";" = true → p.comments.trailing = []

/-- A node whose children show their spots one a line. -/
structure Site.Lined (spots : Piece → List Spot) (s : Site) : Prop where
  nodes : s.children.map Piece.node = s.node.children
  children : ∀ p ∈ s.children, p.Lined (spots p)
  semicolons : s.children.IsChain Piece.AdmitsSemicolon

/-- A node without comments inside it whose children show their spots. -/
structure Site.Spotted (spots : Piece → List Spot) (s : Site) : Prop where
  nodes : s.children.map Piece.node = s.node.children
  children : ∀ p ∈ s.children, p.Spotted (spots p)
  dangling : s.comments.dangling = []

variable {s : Site} {p : Piece} {ps : List Piece}

/-- Pieces without comments behind them admit semicolons. -/
theorem isChain_admitsSemicolon (h : ∀ p ∈ ps, p.comments.trailing = []) :
    ps.IsChain Piece.AdmitsSemicolon := by
  induction ps with
  | nil => exact .nil
  | cons p ps ih =>
    obtain ⟨hp, hps⟩ := List.forall_mem_cons.mp h
    cases ps with
    | nil => exact .singleton p
    | cons q ps => exact .cons_cons (fun _ => hp) (ih hps)

/-- Documents that go on behind any number of breaks and end with a leaf. -/
abbrev TrailsAll (ds : List Doc) (ws : List Spot) : Prop := ∀ b, StringsAll b ds ws (some 0)

/-- The documents of several pieces. -/
theorem places_docs (h : ∀ p ∈ ps, p.Spotted (spots p)) :
    Ensures (docs ps) (PlacesEach · (ps.map spots)) := by
  refine ensures_mapM_forall₂ ?_
  rw [List.forall₂_map_right_iff, List.forall₂_same]
  exact fun p hp => (h p hp).doc

/-- Pieces in front of which nothing is fixed. -/
theorem knit_eq_flatten (ps : List Piece) : knit spots [] ps = (ps.map spots).flatten := by
  induction ps with
  | nil => rfl
  | cons p ps ih => rw [knit_cons_of_nil, ih, List.map_cons, List.flatten_cons]

/-- Documents that trail stand one after the other. -/
theorem onward_of_trails {ds : List Doc} {wss : List (List Spot)}
    (h : List.Forall₂ Trails ds wss) : Onward ds wss.flatten := by
  induction h with
  | nil => exact .nil
  | cons hd _ ih => exact .cons (hd _) ih

/-- Documents that are each put behind a gap. -/
theorem PlacesEach.trail {f : Doc → Doc} (hf : ∀ d ws, Places d ws → Trails (f d) ws)
    {ds : List Doc} {wss : List (List Spot)} (h : PlacesEach ds wss) :
    List.Forall₂ Trails (ds.map f) wss := by
  induction h with
  | nil => exact .nil
  | cons hd _ ih => exact .cons (hf _ _ hd) ih

/-! ## Lists between delimiters -/

/-- Documents that show the spots `ws` once a separator is put between any two of them. -/
inductive Punctuated (separator : String) : List Doc → List Spot → Prop
  | last {d ws} (hd : Places d ws) : Punctuated separator [d] ws
  | more {d ds ws vs} (hd : Places d ws) (h : Punctuated separator ds vs) :
    Punctuated separator (d :: ds) (ws ++ ⟨none, separator⟩ :: vs)

namespace Punctuated

variable {separator : String} {ds : List Doc} {ws : List Spot}

/-- A punctuated list has an item. -/
theorem ne_nil (h : Punctuated separator ds ws) : ds ≠ [] := by
  cases h <;> simp

/-- A separator and a gap go between any two items. -/
theorem interleave {e : Doc} (he : Strings (some 0) e [⟨none, separator⟩] none)
    (h : Punctuated separator ds ws) : TrailsAll (interleave e ds) ws := by
  induction h with
  | last hd => exact fun b => hd.last
  | @more d ds ws vs hd h ih =>
    intro b
    cases ds with
    | nil => exact absurd rfl h.ne_nil
    | cons f fs => exact .cons (hd.free b) (.cons he (ih none))

/-- In a fill, a separator stays with the item in front of it. -/
theorem fillParts (h : Punctuated separator ds ws) : TrailsAll (fillParts separator ds) ws := by
  induction h with
  | last hd => exact fun b => hd.last
  | @more d ds ws vs hd h ih =>
    intro b
    cases ds with
    | nil => exact absurd rfl h.ne_nil
    | cons f fs =>
      have hitem : StringsAll b [d, .text separator] (ws ++ [⟨none, separator⟩]) (some 0) :=
        hd.then (places_text separator).last
      have hall := StringsAll.cons hitem.cat (.slack slack_space (ih none))
      rwa [List.append_assoc, List.singleton_append] at hall

/-- Grouping the last item changes nothing that is shown. -/
theorem groupLast (h : Punctuated separator ds ws) : Punctuated separator (groupLast ds) ws := by
  induction h with
  | last hd => exact .last hd.single.grouped
  | @more d ds ws vs hd h ih =>
    cases ds with
    | nil => exact absurd rfl h.ne_nil
    | cons f fs => exact .more hd ih

end Punctuated

/-- The separators of a list come back with its items, but for one behind the last. -/
theorem exists_punctuated (spots : Piece → List Spot) {separator : String} {closed : Bool}
    {ts : List Tree} (h : Shape.Separated separator closed ts) {ps : List Piece}
    (hn : ps.map Piece.node = ts) (hp : ∀ p ∈ ps, p.Spotted (spots p)) :
    ∃ ws, knit spots [] ps = ws ++ (if closed then [⟨none, separator⟩] else []) ∧
      Ensures (docs (ps.filter (·.node.isNamed))) (Punctuated separator · ws) := by
  induction h generalizing ps with
  | @single t ht =>
    obtain ⟨p, rfl, rfl⟩ := List.map_eq_singleton_iff.mp hn
    have hp := hp p (by simp)
    have hfilter : [p].filter (·.node.isNamed) = [p] := by simp [ht]
    refine ⟨spots p, by simp, ?_⟩
    rw [hfilter, docs, List.mapM_cons, List.mapM_nil]
    exact hp.doc.bind fun d hd => .pure (.last hd)
  | @closed t u ht hu =>
    obtain ⟨p, rest, rfl, rfl, hrest⟩ := List.map_eq_cons_iff.mp hn
    obtain ⟨q, rfl, rfl⟩ := List.map_eq_singleton_iff.mp hrest
    have hq := (hp q (by simp)).of_isToken hu
    have hp := hp p (by simp)
    have hfilter : [p, q].filter (·.node.isNamed) = [p] := by
      simp [ht, Tree.isNamed_of_isToken hu]
    refine ⟨spots p, by simp [hq], ?_⟩
    rw [hfilter, docs, List.mapM_cons, List.mapM_nil]
    exact hp.doc.bind fun d hd => .pure (.last hd)
  | @more closed t u ts ht hu _ ih =>
    obtain ⟨p, rest, rfl, rfl, hrest⟩ := List.map_eq_cons_iff.mp hn
    obtain ⟨q, qs, rfl, rfl, rfl⟩ := List.map_eq_cons_iff.mp hrest
    obtain ⟨ws, hws, hds⟩ := ih rfl fun r hr => hp r (by simp [hr])
    have hq := (hp q (by simp)).of_isToken hu
    have hp := hp p (by simp)
    have hfilter : (p :: q :: qs).filter (·.node.isNamed) = p :: qs.filter (·.node.isNamed) := by
      simp [ht, Tree.isNamed_of_isToken hu]
    refine ⟨spots p ++ ⟨none, separator⟩ :: ws, by simp [hq, hws], ?_⟩
    rw [hfilter, docs, List.mapM_cons]
    exact hp.doc.bind fun d hd => hds.bind fun ds hds => .pure (.more hd hds)

/-- A document between two delimiters. -/
theorem places_between (opening closing : String) {d : Doc} {ws : List Spot}
    (hd : Strings (some 0) d ws (some 0)) :
    Places (cat [.text opening, d, .text closing]) (⟨none, opening⟩ :: (ws ++ [⟨none, closing⟩])) :=
  ((places_text opening).cons (.cons hd (places_text closing).last)).cat

/-- Documents between two delimiters that may have a line each. -/
theorem places_framed (opening closing : String) {edge : Doc} (hedge : Slack edge) {ds : List Doc}
    {ws : List Spot} (hds : TrailsAll ds ws) :
    Places (grouped [.text opening, indented (edge :: ds), edge, .text closing])
      (⟨none, opening⟩ :: (ws ++ [⟨none, closing⟩])) := by
  have hinside : Strings (some 0) (indented (edge :: ds)) ws (some 0) :=
    (StringsAll.slack hedge (hds none)).indented
  exact ((places_text opening).cons
    (.cons hinside (.slack hedge (places_text closing).last))).grouped

/-- A separator with a gap behind it. -/
theorem strings_separator (separator : String) :
    Strings (some 0) (cat [.text separator, space]) [⟨none, separator⟩] none :=
  (StringsAll.cons ((places_text separator).free _) (.single (slack_space _))).cat

/-- A comma with a space behind it. -/
theorem strings_comma : Strings (some 0) (.text ", ") [⟨none, ","⟩] none := by
  rintro _ rfl
  exact .leaf ⟨none, ","⟩ (by simp) (.inl rfl) (.blank (.done (by simp)))

namespace Site.Spotted

/-- The spots of a node whose first and last child are delimiters. -/
theorem knit_between (h : s.Spotted spots) {first last : Piece} {opening closing : String}
    (hc : s.children = first :: (ps ++ [last])) (hopen : first.isToken opening = true)
    (hclose : last.isToken closing = true) :
    knit spots [] s.children = ⟨none, opening⟩ :: (knit spots [] ps ++ [⟨none, closing⟩]) := by
  have hfirst := (h.children first (by simp [hc])).of_isToken hopen
  have hlast := (h.children last (by simp [hc])).of_isToken hclose
  rw [hc, knit_cons_of_nil, knit_append_of_nil, hfirst]
  simp [hlast]

/-- A list between delimiters. -/
theorem delimited (h : s.Spotted spots) (style : ListStyle) {closable : Bool}
    (hs : Shape.Delimited style.opening style.closing style.separator closable s.node.children) :
    Ensures (s.delimited style) (Places · (knit spots [] s.children)) := by
  obtain ⟨first, ps, last, hc, hopen, hclose, hnamed, hbody⟩ := Site.exists_delimited h.nodes hs
  rw [h.knit_between hc hopen hclose, Site.delimited]
  rcases hbody with rfl | ⟨closed, -, hseparated, htrailing⟩
  · rw [hnamed, NodeComments.danglingInline, h.dangling]
    exact .pure (places_between style.opening style.closing StringsAll.nil.cat)
  · obtain ⟨ws, hws, hdocs⟩ := exists_punctuated spots hseparated rfl
      fun p hp => h.children p (by simp [hc, hp])
    have hne : s.named.isEmpty = false := by
      rw [hnamed, List.isEmpty_eq_false_iff]
      exact filter_isNamed_ne_nil hseparated
    rw [if_neg (by simp [hne]), hnamed, htrailing]
    refine hdocs.bind fun ds hds => .pure ?_
    have hlisted : Trails (listBody style (ps.filter (·.node.isNamed)) ds) ws := by
      unfold listBody
      split
      · exact fun b => (hds.fillParts b).fill
      · exact fun b => (hds.interleave (strings_separator style.separator) b).cat
    have hclosed : Trails (if closed then
        cat [listBody style (ps.filter (·.node.isNamed)) ds, .text style.separator]
        else listBody style (ps.filter (·.node.isNamed)) ds) (knit spots [] ps) := by
      rw [hws]
      cases closed with
      | false => simpa using hlisted
      | true => exact fun b => (StringsAll.cons (hlisted b) (places_text style.separator).last).cat
    have hedge : Slack (if style.padded then space else softline) := by
      split
      · exact slack_space
      · exact slack_softline
    exact places_framed style.opening style.closing hedge fun b => .single (hclosed b)

/-- Type arguments. -/
theorem typeArguments (h : s.Spotted spots)
    (hs : Shape.Delimited "<" ">" "," false s.node.children) :
    Ensures s.typeArguments (Places · (knit spots [] s.children)) := by
  obtain ⟨first, ps, last, hc, hopen, hclose, hnamed, hbody⟩ := Site.exists_delimited h.nodes hs
  rw [h.knit_between hc hopen hclose, Site.typeArguments, hnamed]
  rcases hbody with rfl | ⟨closed, hclosed, hseparated, -⟩
  · rw [NodeComments.danglingInline, h.dangling]
    exact .pure (places_between "<" ">" StringsAll.nil.cat)
  · obtain ⟨ws, hws, hdocs⟩ := exists_punctuated spots hseparated rfl
      fun p hp => h.children p (by simp [hc, hp])
    have hclosed : closed = false := Bool.eq_false_of_le_false hclosed
    have hws : knit spots [] ps = ws := by simpa [hclosed] using hws
    refine hdocs.bind fun ds hds => ?_
    rw [if_neg (by simpa [List.isEmpty_iff] using filter_isNamed_ne_nil hseparated), hws]
    exact .pure (places_between "<" ">" (hds.interleave strings_comma _).cat)

/-- Arguments, in both states of the choice. -/
theorem arguments (h : s.Spotted spots)
    (hs : Shape.Delimited "(" ")" "," false s.node.children) :
    Ensures s.arguments (Places · (knit spots [] s.children)) := by
  have hlisted := h.delimited .parenthesized hs
  have hugs : Ensures (hugsLast s.named) fun hugs => hugsLast s.named = .ok hugs := fun _ hh => hh
  refine hugs.bind fun hugs hhugs => ?_
  cases hugs with
  | false => exact hlisted
  | true =>
    obtain ⟨first, ps, last, hc, hopen, hclose, hnamed, hbody⟩ := Site.exists_delimited h.nodes hs
    rcases hbody with rfl | ⟨closed, hclosed, hseparated, -⟩
    · rw [hnamed] at hhugs
      cases hhugs
    · obtain ⟨ws, hws, hdocs⟩ := exists_punctuated spots hseparated rfl
        fun p hp => h.children p (by simp [hc, hp])
      have hclosed : closed = false := Bool.eq_false_of_le_false hclosed
      have hws : knit spots [] ps = ws := by simpa [hclosed] using hws
      rw [← hnamed] at hdocs
      rw [if_pos rfl]
      refine hdocs.bind fun ds hds => hlisted.bind fun listed hlisted => .pure ?_
      rw [h.knit_between hc hopen hclose, hws] at hlisted ⊢
      exact (places_between "(" ")" (hds.groupLast.interleave strings_comma _).cat).choice hlisted

end Site.Spotted

/-! ## Members and bodies -/

/-- The numbers of breaks in front of the members that follow `previous`. -/
def memberBreaks (source : Source) (gap : Gap) (previous : Tree) : List Piece → List (Option Nat)
  | [] => []
  | p :: ps =>
    if p.isToken ";" then none :: memberBreaks source gap previous ps
    else some (if hasBlankLineBefore source p || gap previous p.node then 2 else 1) ::
      memberBreaks source gap p.node ps

/-- The numbers of breaks in front of members: of the first one none is fixed. -/
def membersBreaks (source : Source) (gap : Gap) : List Piece → List (Option Nat)
  | [] => []
  | p :: ps => none :: memberBreaks source gap p.node ps

/-- Members have one number of breaks each. -/
theorem length_memberBreaks (source : Source) (gap : Gap) (previous : Tree) (ps : List Piece) :
    (memberBreaks source gap previous ps).length = ps.length := by
  induction ps generalizing previous with
  | nil => rfl
  | cons p ps ih =>
    rw [memberBreaks]
    split <;> simp [ih]

/-- The members of a body have one number of breaks each. -/
theorem length_membersBreaks (source : Source) (gap : Gap) (ps : List Piece) :
    (membersBreaks source gap ps).length = ps.length := by
  cases ps with
  | nil => rfl
  | cons p ps => simp [membersBreaks, length_memberBreaks]

/-- Members behind another one go on to their spots, and so does what follows the last of them. -/
theorem continues_membersAfter (source : Source) (gap : Gap) (previous : Tree)
    (h : ∀ q ∈ ps, q.Lined (spots q)) (hsemicolons : (p :: ps).IsChain Piece.AdmitsSemicolon) :
    Ensures (membersAfter source gap previous ps) fun ds => ∀ {es vs e},
      Continues (ps.getLastD p).hasBreakingTrailing es vs e →
        Continues p.hasBreakingTrailing (ds ++ es)
          (knit spots (memberBreaks source gap previous ps) ps ++ vs) e := by
  induction ps generalizing p previous with
  | nil => exact .pure fun hes => hes
  | cons q ps ih =>
    obtain ⟨hq, hps⟩ := List.forall_mem_cons.mp h
    obtain ⟨hadmits, hsemicolons⟩ := List.isChain_cons_cons.mp hsemicolons
    unfold membersAfter memberBreaks
    rw [List.getLastD_cons]
    refine hq.precedes.bind fun d hd => ?_
    split
    · rename_i hsemicolon
      rw [Piece.hasBreakingTrailing_of_nil (hadmits hsemicolon)]
      refine (ih previous hps hsemicolons).bind fun ds hds => .pure fun {es vs e} hes => ?_
      rw [knit_cons, List.append_assoc]
      exact hd.strings (by simp) (hds hes)
    · refine (ih q.node hps hsemicolons).bind fun ds hds => .pure fun {es vs e} hes => ?_
      have hmember : ∀ n, StringsAll (some n) (d :: (ds ++ es)) (Spot.behind (some n) (spots q) ++
          (knit spots (memberBreaks source gap q.node ps) ps ++ vs)) e :=
        fun n => hd.strings (fun _ hm => hm) (hds hes)
      rw [knit_cons, List.append_assoc (Spot.behind _ _)]
      unfold memberBreak
      cases hasBlankLineBefore source q || gap previous q.node with
      | false => exact continues_hardline _ (hmember 1)
      | true => exact continues_hardline _ (.skip strings_hardline (hmember 2))

/-- Members, one a line, behind the last of which something may wait. -/
theorem precedes_members (source : Source) (gap : Gap) (h : ∀ p ∈ ps, p.Lined (spots p))
    (hsemicolons : ps.IsChain Piece.AdmitsSemicolon) (hne : ps ≠ []) :
    Ensures (members source gap ps) (Precedes (ps.getLast hne).hasBreakingTrailing [·]
      (knit spots (membersBreaks source gap ps) ps)) := by
  cases ps with
  | nil => exact absurd rfl hne
  | cons p ps =>
    obtain ⟨hp, hps⟩ := List.forall_mem_cons.mp h
    refine hp.precedes.bind fun d hd => ?_
    refine (continues_membersAfter source gap p.node hps hsemicolons).bind fun ds hds => .pure ?_
    rw [List.getLast_eq_getLastD]
    refine Precedes.cat ⟨knit_ne_nil hp.ne_nil, fun hb es vs e hes => ?_⟩
    rw [membersBreaks, behind_knit hp.ne_nil, knit_cons, List.append_assoc]
    exact hd.strings hb (hds hes)

/-- Members, one a line. -/
theorem places_members (source : Source) (gap : Gap) (h : ∀ p ∈ ps, p.Spotted (spots p))
    (hne : ps ≠ []) :
    Ensures (members source gap ps)
      (Places · (knit spots (membersBreaks source gap ps) ps)) := by
  have hquiet : ∀ p ∈ ps, p.comments.trailing = [] := fun p hp => (h p hp).trailing
  have hall := precedes_members source gap (fun p hp => (h p hp).toLined)
    (isChain_admitsSemicolon hquiet) hne
  rw [Piece.hasBreakingTrailing_of_nil (hquiet _ (List.getLast_mem hne))] at hall
  exact hall.mono fun _ hd => hd.places

/-- A document that shows spots in front of a line break, behind any number of breaks. -/
def Halts (d : Doc) (ws : List Spot) : Prop := ∀ b es vs e, StringsAll (some 1) es vs e →
  StringsAll b (d :: hardline :: es) (ws ++ vs) e

/-- What precedes other documents may be in front of a line break. -/
theorem Precedes.halts {waits : Bool} {d : Doc} {ws : List Spot} (h : Precedes waits [d] ws) :
    Halts d ws := fun _ _ _ _ hes => h.stop hes

/-- What ends with a leaf may be in front of a line break. -/
theorem Trails.halts {d : Doc} {ws : List Spot} (h : Trails d ws) : Halts d ws :=
  fun b _ _ _ hes => .cons (h b) (.skip strings_hardline hes)

/-- What stands in a body shows the spots `ws`, document by document. -/
def Occupies (ds : List Doc) (ws : List Spot) : Prop :=
  ∃ wss, List.Forall₂ Halts ds wss ∧ wss.flatten = ws

/-- An empty body shows nothing. -/
theorem occupies_nil : Occupies [] [] := ⟨[], .nil, rfl⟩

/-- A document occupies what it shows. -/
theorem Halts.occupies {d : Doc} {ws : List Spot} (h : Halts d ws) : Occupies [d] ws :=
  ⟨[ws], .cons h .nil, by simp⟩

/-- Two parts of a body. -/
theorem Occupies.append {ds es : List Doc} {ws vs : List Spot} (h : Occupies ds ws)
    (h' : Occupies es vs) : Occupies (ds ++ es) (ws ++ vs) := by
  obtain ⟨wss, hds, rfl⟩ := h
  obtain ⟨vss, hes, rfl⟩ := h'
  exact ⟨wss ++ vss, List.rel_append hds hes, List.flatten_append⟩

/-- What stands in a body, one a line, in front of a line break. -/
theorem Occupies.halts {ds : List Doc} {ws : List Spot} (h : Occupies ds ws) (hne : ds ≠ []) :
    Halts (join hardline ds) ws := by
  obtain ⟨wss, hds, rfl⟩ := h
  intro b es vs e hes
  refine .cat_cons ?_
  induction hds generalizing b with
  | nil => exact absurd rfl hne
  | @cons d ws ds wss hd hds ih =>
    cases hds with
    | nil =>
      rw [List.flatten_singleton]
      exact hd b es vs e hes
    | cons hd' hds' =>
      rw [List.flatten_cons, List.append_assoc]
      exact hd b _ _ e (ih (by simp) (some 1))

/-- Members, if there are any, occupy their spots. -/
theorem occupies_members? (source : Source) (gap : Gap) (h : ∀ p ∈ ps, p.Lined (spots p))
    (hsemicolons : ps.IsChain Piece.AdmitsSemicolon) :
    Ensures (members? source gap ps) fun contents =>
      Occupies contents.toList (knit spots (membersBreaks source gap ps) ps) := by
  unfold members?
  split
  · rename_i hempty
    obtain rfl : ps = [] := by simpa using hempty
    rw [knit_nil]
    exact .pure occupies_nil
  · rename_i hne
    exact (precedes_members source gap h hsemicolons (by simpa using hne)).map
      fun d hd => hd.halts.occupies

/-- Comments inside a node, one a line, occupy their rows. -/
theorem occupies_danglingBlock? (comments : NodeComments) :
    Occupies comments.danglingBlock?.toList
      (comments.dangling.flatMap (·.comment.spots)) := by
  unfold NodeComments.danglingBlock?
  cases comments.dangling with
  | nil => exact occupies_nil
  | cons a as =>
    have hbehind : Onward (as.flatMap AttachedComment.danglingParts)
        (as.flatMap (·.comment.spots)) := by
      induction as with
      | nil => exact .nil
      | cons a' as ih =>
        have hself : ∀ b, StringsAll b (a'.comment.doc :: as.flatMap AttachedComment.danglingParts)
            (a'.comment.spots ++ as.flatMap (·.comment.spots)) (some 0) :=
          fun b => (places_comment a'.comment).then ih
        rw [List.flatMap_cons, List.flatMap_cons]
        unfold AttachedComment.danglingParts
        split
        · exact .slack slack_hardline (hself none)
        · exact .slack slack_hardline (.slack slack_hardline (hself none))
    have hall := ((places_comment a.comment).cons hbehind).cat
    exact (Trails.halts fun b => hall.free b).occupies

/-- Braces around a body and the comments in it. -/
theorem places_braces {comments : NodeComments} {contents : Option Doc} {ws : List Spot}
    (h : Occupies contents.toList ws) :
    Places (braces comments contents) (⟨none, "\x7b"⟩ ::
      (comments.dangling.flatMap (·.comment.spots) ++ (ws ++ [⟨none, "\x7d"⟩]))) := by
  have hbody := (occupies_danglingBlock? comments).append h
  rw [← List.append_assoc]
  unfold braces
  split
  · rename_i hnone
    obtain ⟨wss, hwss, hws⟩ := hbody
    rw [hnone] at hwss
    cases hwss
    rw [← hws]
    exact places_text_append "\x7b" "\x7d"
  · rename_i hsome
    have hclosed : StringsAll (some 1) [.text "\x7d"] [⟨none, "\x7d"⟩] (some 0) :=
      (places_text "\x7d").last
    have hinside := hbody.halts hsome none _ _ _ hclosed
    exact ((places_text "\x7b").cons (.indented_cons (.slack slack_hardline hinside))).cat

namespace Site.Lined

/-- The spots of a node whose first and last child are delimiters, the comments inside the node
standing behind the first. -/
theorem splice_between (h : s.Lined spots) {first last : Piece} {opening closing : String}
    (hc : s.children = first :: (ps ++ [last])) (hopen : first.isToken opening = true)
    (hclose : last.isToken closing = true) {ks : List (Option Nat)} (hks : ks.length ≤ ps.length) :
    splice (none :: ks) (s.comments.tuck Comment.spots (s.children.map spots)) =
      ⟨none, opening⟩ :: (s.comments.dangling.flatMap (·.comment.spots) ++
        (knit spots ks ps ++ [⟨none, closing⟩])) := by
  have hfirst := (h.children first (by simp [hc])).of_isToken hopen
  have hlast := (h.children last (by simp [hc])).of_isToken hclose
  have hrest : splice ks ((ps ++ [last]).map spots) = knit spots ks ps ++ [⟨none, closing⟩] := by
    rw [← hlast]
    exact (knit_append hks).trans (by simp)
  rw [hc, List.map_cons, NodeComments.tuck, splice, hrest, hfirst]
  simp

/-- The children between the braces have their spots. -/
theorem unbraced (h : s.Lined spots) : ∀ p ∈ s.unbraced, p.Lined (spots p) :=
  fun p hp => h.children p (List.mem_of_mem_filter hp)

/-- A body of members between braces. -/
theorem body (h : s.Lined spots) (hs : Shape.Braced s.node.children) (gap : Gap) :
    Ensures (s.body gap) (Places · (splice (none :: membersBreaks s.source gap s.unbraced)
      (s.comments.tuck Comment.spots (s.children.map spots)))) := by
  obtain ⟨first, items, last, hc, hopen, hclose, hitems⟩ := hs
  obtain ⟨-, f, l, hframe, hf, hl⟩ := Site.exists_braced h.nodes hc hopen hclose hitems
  have hsemicolons : s.unbraced.IsChain Piece.AdmitsSemicolon := by
    have hall := h.semicolons
    rw [hframe] at hall
    exact hall.tail.left_of_append
  rw [h.splice_between hframe hf hl (length_membersBreaks _ _ _).le, Site.body]
  exact (occupies_members? s.source gap h.unbraced hsemicolons).bind fun contents hcontents =>
    .pure (places_braces hcontents)

/-- A compilation unit without comments in it: its parts and a break behind the last one. -/
theorem program (h : s.Lined spots) (hdangling : s.comments.dangling = []) :
    Ensures s.program
      (Strings none · (knit spots (membersBreaks s.source Gap.ofProgram s.children) s.children)
        none) := by
  unfold Site.program
  have hnone : s.comments.danglingBlock? = none := by rw [NodeComments.danglingBlock?, hdangling]
  rw [hnone]
  refine (occupies_members? s.source Gap.ofProgram h.children h.semicolons).bind
    fun contents hcontents => ?_
  rw [Option.toList_none, List.nil_append]
  split
  · rename_i hempty
    obtain ⟨wss, hwss, hws⟩ := hcontents
    rw [hempty] at hwss
    cases hwss
    rw [← hws]
    exact .pure strings_nothing
  · rename_i hne
    have hall := hcontents.halts hne none [] [] none .nil_none
    rw [List.append_nil] at hall
    exact .pure hall.cat

end Site.Lined

/-- The parts of a fragment and a break behind the last one. -/
theorem strings_fragmentDoc (parsed : Parsed) (h : ∀ p ∈ ps, p.Lined (spots p))
    (hsemicolons : ps.IsChain Piece.AdmitsSemicolon) (hne : ps ≠ []) :
    Ensures (fragmentDoc parsed ps) (Strings none ·
      (knit spots (membersBreaks parsed.source (fragmentGap parsed.rootParent) ps) ps) none) := by
  refine (precedes_members parsed.source (fragmentGap parsed.rootParent) h hsemicolons hne).bind
    fun d hd => .pure ?_
  have hall := hd.halts none [] [] none .nil_none
  rw [List.append_nil] at hall
  exact hall.cat

/-! ## Declarations of types -/

/-- The number of breaks behind the modifiers of a declaration. -/
def headBreaks (kind : NodeKind) : List Piece → List (Option Nat)
  | p :: q :: _ => if p.kind = .modifiers then [none, separatorBreaks kind .standard p q] else []
  | _ => []

/-- What the children of a declaration behind its modifiers are sorted into: a head, clauses and
a body. -/
structure TypeParts.Spotted (spots : Piece → List Spot) (parts : TypeParts) (hs ks : List Piece)
    (body : Piece) : Prop where
  head : parts.head = hs
  clauses : PlacesEach parts.clauses (ks.map spots)
  body : ∃ d, parts.body = some d ∧ Places d (spots body)

section TypeParts

variable {hs ks : List Piece} {body : Piece}

/-- The parts of a type are sorted with their spots in order. -/
theorem spotted_typeParts (spots : Piece → List Spot) (kind : NodeKind)
    (hhead : ∀ p ∈ hs, p.kind ≠ .modifiers ∧ p.kind.isHeaderClause = false ∧
      p.kind.isTypeBody = false) (hclauses : ∀ p ∈ ks, p.kind.isHeaderClause = true)
    (hbody : body.kind.isTypeBody = true) (hks : ∀ p ∈ ks, p.Spotted (spots p))
    (hb : body.Spotted (spots body)) :
    Ensures (typeParts kind (hs ++ (ks ++ [body]))) fun parts =>
      parts.modifiers = [] ∧ parts.Spotted spots hs ks body := by
  rw [typeParts_unmodified kind hhead hclauses hbody]
  exact (places_docs hks).bind fun ds hds => hb.doc.bind fun d hd =>
    .pure ⟨rfl, rfl, hds, d, rfl, hd⟩

/-- The head of a declaration is not empty if one of the children belongs to it. -/
theorem head_ne_nil {ms : List Piece} (hmodifiers : ∀ p ∈ ms, p.kind = .modifiers)
    (hclauses : ∀ p ∈ ks, p.kind.isHeaderClause = true) (hbody : body.kind.isTypeBody = true)
    (hheaded : ∃ t ∈ (ms ++ (hs ++ (ks ++ [body]))).map Piece.node, isHead t) : hs ≠ [] := by
  rintro rfl
  obtain ⟨t, ht, hm, hk, hb⟩ := hheaded
  obtain ⟨p, hp, rfl⟩ := List.mem_map.mp ht
  simp only [List.nil_append, List.mem_append, List.mem_singleton] at hp
  rcases hp with hp | hp | rfl
  · exact hm (hmodifiers p hp)
  · have hclause : p.node.kind.isHeaderClause = true := hclauses p hp
    rw [hk] at hclause
    cases hclause
  · have hbody : p.node.kind.isTypeBody = true := hbody
    rw [hb] at hbody
    cases hbody

/-- The head of a declaration with its clauses. -/
theorem places_header {head : Doc} {vs : List Spot} (hhead : Places head vs) {clauses : List Doc}
    {wss : List (List Spot)} (hclauses : PlacesEach clauses wss) :
    Places (if clauses.isEmpty then head
      else grouped [head, indented (clauses.map fun clause => cat [space, clause])])
      (vs ++ wss.flatten) := by
  have hspaced := hclauses.trail fun d ws hd b => (StringsAll.slack slack_space hd.last).cat
  cases hclauses with
  | nil => simpa using hhead
  | cons _ _ => exact (hhead.cons (.single (onward_of_trails hspaced).indented)).grouped

/-- A declaration without its modifiers. -/
theorem TypeParts.Spotted.declared {parts : TypeParts} (h : parts.Spotted spots hs ks body)
    (kind : NodeKind) (hne : hs ≠ []) (hunmodified : ∀ p ∈ hs, p.kind ≠ .modifiers)
    (hhs : ∀ p ∈ hs, p.Spotted (spots p)) :
    Ensures (Layout.sequence kind .ofTypeHead parts.head) fun head =>
      PlacesAll [if parts.clauses.isEmpty then head
        else grouped [head, indented (parts.clauses.map fun clause => cat [space, clause])],
        .text " ", parts.body.getD (.text "")] (knit spots [] (hs ++ (ks ++ [body]))) := by
  obtain ⟨rfl, hclauses, d, hbody, hd⟩ := h
  obtain ⟨p, ps, hps⟩ := List.exists_cons_of_ne_nil hne
  rw [hps] at hunmodified hhs ⊢
  obtain ⟨hp, hrest⟩ := List.forall_mem_cons.mp hunmodified
  refine (places_sequence kind .ofTypeHead hhs (by simp)).mono fun head hhead => ?_
  rw [lineBreaks, knit_cons, knit_sequenceBreaks kind .ofTypeHead hp hrest, Spot.behind_none,
    ← knit_cons_of_nil] at hhead
  rw [hbody, Option.getD_some, knit_append_of_nil, knit_append_of_nil, knit_eq_flatten ks,
    ← List.append_assoc]
  simpa using (places_header hhead hclauses).cons (.skip strings_blank hd.last)

end TypeParts

/-- No break is fixed in a declaration without modifiers. -/
theorem headBreaks_of_unmodified (kind : NodeKind) (h : ∀ p ∈ ps, p.kind ≠ .modifiers) :
    headBreaks kind ps = [] := by
  unfold headBreaks
  split
  · exact if_neg (h _ (by simp))
  · rfl

/-- The declaration of a type. -/
theorem Site.Spotted.typeDeclaration (h : s.Spotted spots)
    (hs : Shape.TypeDeclared s.node.children) (hheaded : ∃ t ∈ s.node.children, isHead t) :
    Ensures s.typeDeclaration
      (Places · (knit spots (headBreaks s.node.kind s.children) s.children)) := by
  obtain ⟨ms, hs, ks, body, hps, hmodifiers, hhead, hclauses, hbody⟩ :=
    Site.exists_typeDeclared h.nodes hs
  have hne : hs ≠ [] := by
    rw [← h.nodes, hps] at hheaded
    refine head_ne_nil (fun p hp => ?_) hclauses hbody hheaded
    rcases hmodifiers with rfl | ⟨m, rfl, hkind⟩
    · cases hp
    · obtain rfl := List.mem_singleton.mp hp
      exact hkind
  have hall := h.children
  rw [Site.typeDeclaration]
  rw [hps] at hall ⊢
  have hunmodified := ne_modifiers_of_typeDeclared hhead hclauses hbody
  have hparts := spotted_typeParts spots s.node.kind hhead hclauses hbody
    (fun p hp => hall p (by simp [hp])) (hall body (by simp))
  have hdeclared : ∀ {parts : TypeParts}, parts.Spotted spots hs ks body → _ := fun hparts =>
    hparts.declared s.node.kind hne (fun p hp => (hhead p hp).1) fun p hp => hall p (by simp [hp])
  rcases hmodifiers with rfl | ⟨m, rfl, hkind⟩
  · rw [List.nil_append, headBreaks_of_unmodified _ hunmodified]
    refine hparts.bind fun parts ⟨hm, hparts⟩ => (hdeclared hparts).bind fun head hhead => .pure ?_
    rw [hm]
    exact hhead.cat
  · obtain ⟨next, more, hnext⟩ : ∃ next more, hs ++ (ks ++ [body]) = next :: more :=
      List.exists_cons_of_ne_nil (by simp)
    have hnone := (hall next (by rw [hnext]; simp)).ne_nil
    rw [hnext] at hparts
    rw [List.singleton_append, hnext, typeParts_modified _ hkind, headBreaks, if_pos hkind]
    have hm := hall m (by simp)
    refine Ensures.bind (P := fun parts => ∃ d, parts.modifiers =
      [d, separator (some s.node.kind) .standard (some next.node) m next] ∧
        Places d (spots m) ∧ parts.Spotted spots hs ks body) ?_ ?_
    · refine hm.doc.bind fun d hd => hparts.bind fun rest ⟨hnil, hrest⟩ => .pure ?_
      exact ⟨d, by rw [hnil], hd, hrest.head, hrest.clauses, hrest.body⟩
    · rintro parts ⟨d, hmodifiers, hd, hparts⟩
      refine (hdeclared hparts).bind fun head hhead => .pure ?_
      obtain ⟨c, hseparator, hc⟩ :=
        exists_strings_separator (q := next) s.node.kind .standard hm
      have hbehind := hhead.strings c _ hc
      rw [hnext, ← knit_none, behind_knit hnone] at hbehind
      rw [hmodifiers, knit_cons, Spot.behind_none]
      exact (hd.cons (.skip hseparator hbehind)).cat

/-! ## Enumerations -/

/-- The numbers of breaks in front of constants, of which the first has been seen or not. -/
def constantBreaks (source : Source) : Bool → List Piece → List (Option Nat)
  | _, [] => []
  | started, p :: ps =>
    if p.kind = .enumBodyDeclarations then none :: constantBreaks source started ps
    else if started && p.isToken "," then none :: constantBreaks source started ps
    else (if started then some (if hasBlankLineBefore source p then 2 else 1) else none) ::
      constantBreaks source true ps

/-- The constants of an enum have one number of breaks each. -/
theorem length_constantBreaks (source : Source) (started : Bool) (ps : List Piece) :
    (constantBreaks source started ps).length = ps.length := by
  induction ps generalizing started with
  | nil => rfl
  | cons p ps ih =>
    rw [constantBreaks]
    split
    · simp [ih]
    · split <;> simp [ih]

/-- No break is fixed in front of what is declared behind the constants. -/
theorem knit_constantBreaks_append (source : Source) (started : Bool) (ps : List Piece)
    {qs : List Piece} (hqs : ∀ q ∈ qs, q.kind = .enumBodyDeclarations) :
    knit spots (constantBreaks source started (ps ++ qs)) (ps ++ qs) =
      knit spots (constantBreaks source started ps) ps ++ knit spots [] qs := by
  induction ps generalizing started with
  | nil =>
    rw [List.nil_append, knit_nil, List.nil_append]
    induction qs with
    | nil => simp
    | cons q qs ih =>
      obtain ⟨hq, hqs⟩ := List.forall_mem_cons.mp hqs
      rw [constantBreaks, if_pos hq, knit_cons, ih hqs, knit_cons_of_nil, Spot.behind_none]
  | cons p ps ih =>
    rw [List.cons_append, constantBreaks, constantBreaks]
    split
    · simp [ih]
    · split <;> simp [ih]

/-- Behind a constant come its comma and the other constants. -/
theorem strings_enumConstants (source : Source) {b : Option Nat} {d : Doc} {vs : List Spot}
    (hd : Strings b d vs (some 0)) {qs : List Piece} (h : ∀ p ∈ ps, p.Spotted (spots p))
    (hps : ∀ p ∈ ps, p.kind ≠ .enumBodyDeclarations)
    (hqs : ∀ q ∈ qs, q.kind = .enumBodyDeclarations) :
    Ensures (enumConstants source (some d) (ps ++ qs)) fun ds => ds ≠ [] ∧
      StringsAll b (interleave hardline ds)
        (vs ++ knit spots (constantBreaks source true ps) ps) (some 0) := by
  induction ps generalizing b d vs with
  | nil =>
    rw [List.nil_append, enumConstants_of_declarations source (some d) hqs]
    refine .pure ⟨by simp, ?_⟩
    rw [knit_nil, List.append_nil]
    exact .single hd
  | cons p ps ih =>
    obtain ⟨hp, hrest⟩ := List.forall_mem_cons.mp h
    obtain ⟨hkind, hkinds⟩ := List.forall_mem_cons.mp hps
    rw [List.cons_append, constantBreaks, if_neg hkind]
    rcases enumConstants_cons source (some d) (ps ++ qs) hkind with
      ⟨_, ⟨⟩, hcomma, heq⟩ | ⟨hconstant, heq⟩
    all_goals rw [heq]
    · have hclosed : Strings b (cat [d, .text ","]) (vs ++ spots p) (some 0) := by
        rw [hp.of_isToken hcomma]
        exact (StringsAll.cons hd (places_text ",").last).cat
      have hall := ih hclosed hrest hkinds
      rw [List.append_assoc] at hall
      rw [hcomma]
      exact hall
    · rw [hconstant rfl]
      refine hp.doc.bind fun e he => ?_
      have hnext : Strings (some 1) (if hasBlankLineBefore source p then cat [hardline, e] else e)
          (Spot.behind (some (if hasBlankLineBefore source p then 2 else 1)) (spots p))
          (some 0) := by
        cases hasBlankLineBefore source p with
        | false => exact he.fixed 1
        | true =>
          have hblank : Strings (some 1) hardline [] (some 2) := strings_hardline
          exact (StringsAll.skip hblank (.single (he.fixed 2))).cat
      refine (ih hnext hrest hkinds).bind fun ds hall => .pure ⟨by simp, ?_⟩
      obtain ⟨hne, hds⟩ := hall
      cases ds with
      | nil => exact absurd rfl hne
      | cons f fs => exact .cons hd (.skip strings_hardline hds)

/-- All constants, each with the comma behind it. -/
theorem trails_enumConstants (source : Source) {qs : List Piece}
    (h : ∀ p ∈ ps, p.Spotted (spots p)) (hps : ∀ p ∈ ps, p.kind ≠ .enumBodyDeclarations)
    (hqs : ∀ q ∈ qs, q.kind = .enumBodyDeclarations) :
    Ensures (enumConstants source none (ps ++ qs)) fun ds =>
      ds = [] ∧ ps = [] ∨ ds ≠ [] ∧ TrailsAll (interleave hardline ds)
        (knit spots (constantBreaks source false ps) ps) := by
  cases ps with
  | nil =>
    rw [List.nil_append, enumConstants_of_declarations source none hqs]
    exact .pure (.inl ⟨rfl, rfl⟩)
  | cons p ps =>
    obtain ⟨hp, hrest⟩ := List.forall_mem_cons.mp h
    obtain ⟨hkind, hkinds⟩ := List.forall_mem_cons.mp hps
    rw [List.cons_append, constantBreaks, if_neg hkind]
    rcases enumConstants_cons source none (ps ++ qs) hkind with ⟨_, ⟨⟩, -⟩ | ⟨-, heq⟩
    rw [heq]
    refine hp.doc.bind fun d hd => ?_
    exact (strings_enumConstants source (hd.free none) hrest hkinds hqs).bind
      fun ds hds => .pure (.inr ⟨hds.1, hds.2.known⟩)

/-- The body of an enumeration, of whose children none has comments behind it. -/
theorem Site.Lined.enumBody (h : s.Lined spots)
    (hquiet : ∀ p ∈ s.children, p.comments.trailing = [])
    (hs : Shape.EnumBraced s.node.children) :
    Ensures s.enumBody (Places · (splice (none :: constantBreaks s.source false s.unbraced)
      (s.comments.tuck Comment.spots (s.children.map spots)))) := by
  obtain ⟨ps, qs, hps, hkinds, hdeclared, f, l, hframe, hf, hl⟩ :=
    Site.exists_enumBraced h.nodes hs
  have hpieces : ∀ p ∈ s.unbraced, p.Spotted (spots p) :=
    fun p hp => ⟨h.unbraced p hp, hquiet p (List.mem_of_mem_filter hp)⟩
  have hbetween :=
    h.splice_between hframe hf hl (length_constantBreaks s.source false s.unbraced).le
  have hqs : ∀ q ∈ qs, q.kind = .enumBodyDeclarations := by
    rcases hdeclared with rfl | ⟨q, rfl, hkind⟩
    · simp
    · exact List.forall_mem_singleton.mpr hkind
  rw [hbetween, Site.enumBody]
  rw [hps] at hpieces ⊢
  rw [knit_constantBreaks_append s.source false ps hqs]
  refine (trails_enumConstants s.source (fun p hp => hpieces p (by simp [hp])) hkinds hqs).bind
    fun ds hds => ?_
  rcases hdeclared with rfl | ⟨q, rfl, hkind⟩
  · rw [List.append_nil, find?_declarations hkinds, knit_nil, List.append_nil]
    refine .pure (places_braces ?_)
    rcases hds with ⟨rfl, rfl⟩ | ⟨hne, hds⟩
    · exact occupies_nil
    · have hsome : ds.isEmpty = false := by simpa using hne
      rw [hsome]
      exact (Trails.halts fun b => (hds b).cat).occupies
  · have hq := hpieces q (by simp)
    have hfound : (ps ++ [q]).reverse.find? (·.kind == .enumBodyDeclarations) = some q := by
      simp [hkind]
    rw [hfound]
    refine hq.doc.bind fun d hd => .pure (places_braces ?_)
    rw [knit_cons_of_nil, knit_nil, List.append_nil]
    refine (Trails.halts fun b => ?_).occupies
    rcases hds with ⟨rfl, rfl⟩ | ⟨hne, hds⟩
    · rw [knit_nil, List.nil_append]
      exact (StringsAll.skip StringsAll.nil.cat hd.last).cat
    · exact (StringsAll.cons (hds b).cat hd.last).cat

namespace Site.Spotted

/-- What follows the constants of an enumeration. -/
theorem enumDeclarations (h : s.Spotted spots)
    (hs : Shape.Allowed .enumBodyDeclarations s.node.children) :
    Ensures s.enumDeclarations (Places · (knit spots
      (none :: membersBreaks s.source Gap.ofMembers (s.children.drop 1)) s.children)) := by
  obtain ⟨semicolon, items, hc, hsemicolon⟩ := hs
  rw [← h.nodes] at hc
  obtain ⟨p, ps, hps, rfl, rfl⟩ := List.map_eq_cons_iff.mp hc
  have hp := (h.children p (by simp [hps])).of_isToken hsemicolon
  rw [Site.enumDeclarations, hps, List.drop_one, List.tail_cons, knit_cons, Spot.behind_none, hp]
  cases ps with
  | nil => exact .pure (by simpa using places_text ";")
  | cons q qs =>
    refine (places_members s.source Gap.ofMembers (fun r hr => h.children r (by
      rw [hps]
      exact List.mem_cons_of_mem _ hr)) (by simp)).bind fun d hd => .pure ?_
    exact ((places_text ";").cons (.slack slack_hardline (.slack slack_hardline hd.last))).cat

/-- Dimensions are set off if they begin with an annotation. -/
theorem dimensions (h : s.Spotted spots) (hne : s.children ≠ []) :
    Ensures s.dimensions (Places · (knit spots [] s.children)) := by
  refine (places_tight h.children hne).bind fun d hd => ?_
  split
  · exact .pure hd.single.behind_blank.cat
  · exact .pure hd

end Site.Spotted

/-! ## Modifiers -/

/-- The numbers of breaks in front of the modifiers behind `previous`. -/
def modifierBreaks (owner : Option NodeKind) (previous : Piece) : List Piece → List (Option Nat)
  | [] => []
  | p :: ps =>
    some (if annotationOnOwnLine owner previous.node (some p.node) then 1 else 0) ::
      modifierBreaks owner p ps

/-- The numbers of breaks in front of modifiers: of the first one none is fixed. -/
def modifiersBreaks (owner : Option NodeKind) : List Piece → List (Option Nat)
  | [] => []
  | p :: ps => none :: modifierBreaks owner p ps

/-- Modifiers, each with a gap behind it. -/
theorem places_modifierParts (owner : Option NodeKind) (hp : p.Spotted (spots p))
    (h : ∀ q ∈ ps, q.Spotted (spots q)) :
    Ensures (modifierParts owner [] (p :: ps))
      (PlacesAll · (knit spots (none :: modifierBreaks owner p ps) (p :: ps))) := by
  induction ps generalizing p with
  | nil =>
    unfold modifierParts
    refine hp.doc.bind fun d hd => .pure ?_
    rw [knit_cons, Spot.behind_none, modifierBreaks, knit_nil]
    exact hd.cons .nil
  | cons q ps ih =>
    obtain ⟨hq, hps⟩ := List.forall_mem_cons.mp h
    have hbreaking := Piece.hasBreakingTrailing_of_nil hp.trailing
    unfold modifierParts
    refine hp.doc.bind fun d hd => (ih hq hps).bind fun ds hds => .pure ?_
    rw [knit_cons, Spot.behind_none, modifierBreaks]
    have hbehind : ∀ n, StringsAll (some n) ds
        (knit spots (some n :: modifierBreaks owner q ps) (q :: ps)) (some 0) := by
      intro n
      have hfixed := hds.strings (some n) (some n) fun _ hm => hm
      rwa [behind_knit hq.ne_nil] at hfixed
    have hgap : Onward (modifierBreak owner p [] (some q.node) ++ ds)
        (knit spots (some (if annotationOnOwnLine owner p.node (some q.node) then 1 else 0) ::
          modifierBreaks owner q ps) (q :: ps)) := by
      unfold modifierBreak
      simp only [hbreaking, List.getLast?_nil, Option.any_none, Bool.false_or, Bool.or_false]
      split
      · exact .skip strings_hardline (hbehind 1)
      · exact .skip strings_blank (hbehind 0)
    exact hd.cons hgap

/-- A list of modifiers. -/
theorem Site.Spotted.modifiers (h : s.Spotted spots) (hne : s.children ≠ []) :
    Ensures s.modifiers
      (Places · (knit spots (modifiersBreaks s.parent s.children) s.children)) := by
  obtain ⟨p, ps, hps⟩ := List.exists_cons_of_ne_nil hne
  have hchildren := h.children
  rw [Site.modifiers, h.dangling]
  rw [hps] at hchildren ⊢
  obtain ⟨hp, hrest⟩ := List.forall_mem_cons.mp hchildren
  exact (places_modifierParts s.parent hp hrest).bind fun ds hds => .pure hds.cat

end JavaFormat.Layout
