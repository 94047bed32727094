import JavaFormat.Layout.Rule
import JavaFormat.Proofs.Layout.Firm
import JavaFormat.Proofs.Layout.Sites

/-!
# Every rule prints its node firmly

What a rule prints begins and ends visibly if what it puts together does. Between two
parts there is at most one line break, or two in front of a member and behind a comment,
and each rule with such a break has something visible on both sides of it.
-/

namespace JavaFormat.Layout

open Doc

/-- A node whose children have firm pieces and whose comments are firm. -/
structure Site.Firm (s : Site) : Prop where
  children : ∀ p ∈ s.children, p.Firm
  comments : s.comments.Firm

variable {s : Site} {p : Piece} {ps : List Piece}

/-- A space where a line might end. -/
theorem keeps_gap : Keeps 0 1 (.text " ") := (keeps_blank (n := 0)).mono le_rfl (by decide)

/-- Behind something visible nothing is one line feed at most. -/
theorem keeps_nothing : Keeps 0 1 (.text "") := (keeps_empty (n := 0)).mono le_rfl (by decide)

/-! ## Children on one line -/

/-- What separates modifiers from what follows is one line feed at most. -/
theorem keeps_modifiersSeparator (owner : Option NodeKind) (modifiers : Tree)
    (comments : NodeComments) (following : Option Tree) :
    Keeps 0 1 (modifiersSeparator owner modifiers comments following) := by
  unfold modifiersSeparator
  split
  · exact keeps_gap
  · split
    · exact keeps_hardline
    · exact keeps_gap

/-- What separates two pieces is one line feed at most. -/
theorem keeps_separator (owner : Option NodeKind) (spacing : Spacing) (sibling : Option Tree)
    (previous following : Piece) :
    Keeps 0 1 (separator owner spacing sibling previous following) := by
  unfold separator
  split
  · exact keeps_nothing
  · split
    · exact keeps_hardline
    · split
      · exact keeps_modifiersSeparator owner previous.node previous.comments sibling
      · split
        · exact keeps_nothing
        · exact keeps_gap

/-- What continues a statement is one line feed at most. -/
theorem keeps_continuation (previous : Piece) : Keeps 0 1 (continuation previous) := by
  unfold continuation
  split
  · exact keeps_hardline
  · exact keeps_gap

/-- A sequence of firm pieces goes on behind something visible. -/
theorem ensures_sequenceAfter (owner : NodeKind) (spacing : Spacing) (previous : Piece)
    (h : ∀ p ∈ ps, p.Firm) : Ensures (sequenceAfter owner spacing previous ps) (KeepsAll 0 0) := by
  induction ps generalizing previous with
  | nil => exact .pure .nil
  | cons p ps ih =>
    obtain ⟨hp, hps⟩ := List.forall_mem_cons.mp h
    unfold sequenceAfter
    refine hp.doc.bind fun d hd => (ih p hps).bind fun ds hds => .pure ?_
    exact .cons (keeps_separator (some owner) spacing (some p.node) previous p) (.cons hd.below hds)

/-- A sequence of firm pieces is firm. -/
theorem ensures_sequence (owner : NodeKind) (spacing : Spacing) (h : ∀ p ∈ ps, p.Firm)
    (hne : ps ≠ []) : Ensures (sequence owner spacing ps) Firm := by
  cases ps with
  | nil => exact absurd rfl hne
  | cons p ps =>
    obtain ⟨hp, hps⟩ := List.forall_mem_cons.mp h
    refine hp.doc.bind fun d hd => (ensures_sequenceAfter owner spacing p hps).bind fun ds hds => ?_
    exact .pure (keeps_cat.mpr (.cons hd hds))

/-- Firm pieces that are printed tight go on behind something visible. -/
theorem ensures_tightAfter (previous : Piece) (h : ∀ p ∈ ps, p.Firm) :
    Ensures (tightAfter previous ps) (KeepsAll 0 0) := by
  induction ps generalizing previous with
  | nil => exact .pure .nil
  | cons p ps ih =>
    obtain ⟨hp, hps⟩ := List.forall_mem_cons.mp h
    unfold tightAfter
    refine hp.doc.bind fun d hd => (ih p hps).bind fun ds hds => .pure ?_
    have hspace : KeepsAll 0 0 (if isSpacedByAnnotation previous p then [.text " "] else []) := by
      split
      · exact .single keeps_blank
      · exact .nil
    exact hspace.append (.cons hd.behind hds)

/-- Firm pieces that are printed tight are firm. -/
theorem ensures_tight (h : ∀ p ∈ ps, p.Firm) (hne : ps ≠ []) : Ensures (tight ps) Firm := by
  cases ps with
  | nil => exact absurd rfl hne
  | cons p ps =>
    obtain ⟨hp, hps⟩ := List.forall_mem_cons.mp h
    refine hp.doc.bind fun d hd => (ensures_tightAfter p hps).bind fun ds hds => ?_
    exact .pure (keeps_cat.mpr (.cons hd hds))

/-! ## Lists between delimiters -/

/-- Delimiters and a separator that are visible. -/
structure ListStyle.Firm (style : ListStyle) : Prop where
  opening : Doc.Firm (.text style.opening)
  closing : Doc.Firm (.text style.closing)
  separator : Doc.Firm (.text style.separator)

/-- A style of inline texts is firm. -/
theorem ListStyle.firm_of_inline {style : ListStyle} (ho : Text.Inline style.opening)
    (hc : Text.Inline style.closing) (hs : Text.Inline style.separator) : style.Firm :=
  ⟨firm_inline ho, firm_inline hc, firm_inline hs⟩

/-- A fill of firm items may stand on a line of its own. -/
theorem keepsAll_fillParts {separator : String} (hs : Firm (.text separator)) {ds : List Doc}
    (hds : ∀ d ∈ ds, Firm d) (hne : ds ≠ []) : KeepsAll 1 0 (fillParts separator ds) := by
  induction ds with
  | nil => exact absurd rfl hne
  | cons d ds ih =>
    obtain ⟨hd, hds⟩ := List.forall_mem_cons.mp hds
    cases ds with
    | nil => exact .single hd.below
    | cons e es =>
      have hclosed : Keeps 1 0 (cat [d, .text separator]) :=
        keeps_cat.mpr (.cons hd.below (.single hs.behind))
      exact .cons hclosed (.cons keeps_space (ih hds (by simp)))

/-- The body of a list of firm items may stand on a line of its own. -/
theorem keeps_listBody {style : ListStyle} (hs : style.Firm) (items : List Piece) {ds : List Doc}
    (hds : ∀ d ∈ ds, Firm d) (hne : ds ≠ []) : Keeps 1 0 (listBody style items ds) := by
  unfold listBody
  split
  · exact keeps_fill.mpr (keepsAll_fillParts hs.separator hds hne)
  · have hgap : Keeps 0 1 (cat [.text style.separator, space]) :=
      keeps_cat.mpr (.cons hs.separator.behind (.single keeps_space))
    exact (Firm.join hgap (by decide) hds hne).below

/-- Firm documents behind each other, separated by commas on one line. -/
theorem keeps_commas {ds : List Doc} (h : ∀ d ∈ ds, Firm d) : Keeps 0 0 (join (.text ", ") ds) := by
  have hcomma : Keeps 0 0 (.text ", ") := (firm_text (by decide) (by decide)).behind
  rw [keeps_join]
  cases ds with
  | nil => exact .nil
  | cons d ds =>
    obtain ⟨hd, hds⟩ := List.forall_mem_cons.mp h
    exact .interleave hd.behind hcomma fun d hd => (hds d hd).behind

/-- Comments between two delimiters. -/
theorem NodeComments.Firm.inline {comments : NodeComments} (h : comments.Firm)
    {opening closing : String} (ho : Doc.Firm (.text opening)) (hc : Doc.Firm (.text closing)) :
    Doc.Firm (cat [.text opening, comments.danglingInline, .text closing]) := by
  have hinline : Keeps 0 1 comments.danglingInline := h.keeps_danglingInline.mono (by decide) le_rfl
  exact keeps_cat.mpr (.cons ho (.cons hinline (.single hc.below)))

namespace Site.Firm

/-- The named children of a firm site are firm. -/
theorem named (h : s.Firm) : ∀ p ∈ s.named, p.Firm :=
  fun p hp => h.children p (List.mem_of_mem_filter hp)

/-- The children between the braces of a firm site are firm. -/
theorem unbraced (h : s.Firm) : ∀ p ∈ s.unbraced, p.Firm :=
  fun p hp => h.children p (List.mem_of_mem_filter hp)

/-- A delimited list of firm items is firm. -/
theorem delimited (h : s.Firm) {style : ListStyle} (hs : style.Firm) :
    Ensures (s.delimited style) Doc.Firm := by
  unfold Site.delimited
  split
  · exact .pure (NodeComments.Firm.inline h.comments hs.opening hs.closing)
  · rename_i hnamed
    refine (ensures_docs h.named).bind ?_
    rintro ds ⟨hlength, hds⟩
    have hne : ds ≠ [] := by
      rintro rfl
      exact hnamed (List.isEmpty_iff.mpr (List.length_eq_zero_iff.mp hlength.symm))
    have hbody := keeps_listBody hs s.named hds hne
    have hclosed : Keeps 1 0 (if hasTrailingSeparator s.node style.separator then
        cat [listBody style s.named ds, .text style.separator]
        else listBody style s.named ds) := by
      split
      · exact keeps_cat.mpr (.cons hbody (.single hs.separator.behind))
      · exact hbody
    have hedge : Keeps 0 1 (if style.padded then space else softline) := by
      split
      · exact keeps_space
      · exact keeps_softline
    have hinside := keeps_indented.mpr (.cons hedge (.single hclosed))
    refine .pure (keeps_grouped.mpr ?_)
    exact .cons hs.opening (.cons hinside (.cons hedge (.single hs.closing.below)))

/-- Type arguments are firm. -/
theorem typeArguments (h : s.Firm) : Ensures s.typeArguments Doc.Firm := by
  have hopen : Doc.Firm (.text "<") := firm_inline (by decide)
  have hclose : Doc.Firm (.text ">") := firm_inline (by decide)
  unfold Site.typeArguments
  refine (ensures_docs h.named).bind ?_
  rintro ds ⟨-, hds⟩
  split
  · exact .pure (NodeComments.Firm.inline h.comments hopen hclose)
  · exact .pure (keeps_cat.mpr (.cons hopen (.cons (keeps_commas hds) (.single hclose.behind))))

end Site.Firm

/-! ## Members and bodies -/

/-- Between two members stand a line break and a blank line at most. -/
theorem keepsAll_memberBreak (blank : Bool) : KeepsAll 0 2 (memberBreak blank) := by
  unfold memberBreak
  split
  · exact .cons keeps_hardline (.single keeps_blankLine)
  · exact (KeepsAll.single keeps_hardline).mono le_rfl (by decide)

/-- Firm members behind another one go on behind something visible. -/
theorem ensures_membersAfter (source : Source) (gap : Gap) (previous : Tree)
    (h : ∀ p ∈ ps, p.Firm) : Ensures (membersAfter source gap previous ps) (KeepsAll 0 0) := by
  induction ps generalizing previous with
  | nil => exact .pure .nil
  | cons p ps ih =>
    obtain ⟨hp, hps⟩ := List.forall_mem_cons.mp h
    unfold membersAfter
    refine hp.doc.bind fun d hd => ?_
    split
    · exact (ih previous hps).bind fun ds hds => .pure (.cons hd.behind hds)
    · refine (ih p.node hps).bind fun ds hds => .pure ?_
      exact (keepsAll_memberBreak _).append (.cons hd hds)

/-- Firm members are firm together. -/
theorem ensures_members (source : Source) (gap : Gap) (h : ∀ p ∈ ps, p.Firm) (hne : ps ≠ []) :
    Ensures (members source gap ps) Firm := by
  cases ps with
  | nil => exact absurd rfl hne
  | cons p ps =>
    obtain ⟨hp, hps⟩ := List.forall_mem_cons.mp h
    refine hp.doc.bind fun d hd => ?_
    refine (ensures_membersAfter source gap p.node hps).bind fun ds hds => .pure ?_
    exact keeps_cat.mpr (.cons hd hds)

/-- Firm members, if there are any, are firm together. -/
theorem ensures_members? (source : Source) (gap : Gap) (h : ∀ p ∈ ps, p.Firm) :
    Ensures (members? source gap ps) fun contents => ∀ d ∈ contents.toList, Firm d := by
  unfold members?
  split
  · exact .pure (by simp)
  · rename_i hne
    exact (ensures_members source gap h (by simpa using hne)).map fun d hd => by simpa using hd

/-- What stands between braces is set off by line breaks. -/
theorem firm_braces {comments : NodeComments} (h : comments.Firm) {contents : Option Doc}
    (hcontents : ∀ d ∈ contents.toList, Firm d) : Firm (braces comments contents) := by
  have hopen : Firm (.text "\x7b") := firm_inline (by decide)
  have hclose : Firm (.text "\x7d") := firm_inline (by decide)
  unfold braces
  split
  · exact firm_inline (by decide)
  · rename_i hne
    have hall : ∀ d ∈ comments.danglingBlock?.toList ++ contents.toList, Firm d :=
      List.forall_mem_append.mpr ⟨h.firm_danglingBlock, hcontents⟩
    have hbody := Firm.join keeps_hardline (by decide) hall hne
    have hinside : Keeps 0 0
        (indented [hardline, join hardline (comments.danglingBlock?.toList ++ contents.toList)]) :=
      keeps_indented.mpr (.cons keeps_hardline (.single hbody.below))
    exact keeps_cat.mpr (.cons hopen (.cons hinside (.cons keeps_hardline (.single hclose.below))))

/-- A body is firm. -/
theorem Site.Firm.body (h : s.Firm) (gap : Gap) : Ensures (s.body gap) Doc.Firm :=
  (ensures_members? s.source gap h.unbraced).bind fun _ hcontents =>
    .pure (firm_braces h.comments hcontents)

/-! ## Declarations of types -/

/-- Parts of a declaration that are firm; behind the modifiers there may be a line feed. -/
structure TypeParts.Firm (parts : TypeParts) : Prop where
  modifiers : KeepsAll 2 2 parts.modifiers
  head : ∀ p ∈ parts.head, p.Firm
  clauses : ∀ d ∈ parts.clauses, Doc.Firm d
  body : ∀ d ∈ parts.body, Doc.Firm d

/-- Whether a child of a declaration of a type belongs to its head. -/
def isHead (t : Tree) : Prop :=
  t.kind ≠ .modifiers ∧ t.kind.isHeaderClause = false ∧ t.kind.isTypeBody = false

/-- The parts that the firm children of a type are sorted into are firm, and the head has one if a
child belongs there. Such a child is the first one or among the others. -/
theorem ensures_typeParts (kind : NodeKind) (h : ∀ p ∈ ps, p.Firm) :
    Ensures (typeParts kind ps) fun parts =>
      parts.Firm ∧ ((∃ p ∈ ps, isHead p.node) → parts.head ≠ []) := by
  induction ps with
  | nil => exact .pure ⟨⟨.nil, by simp, by simp, by simp⟩, by simp⟩
  | cons p ps ih =>
    obtain ⟨hp, hps⟩ := List.forall_mem_cons.mp h
    have hrest := ih hps
    have hbehind : ¬isHead p.node → (∃ q ∈ p :: ps, isHead q.node) → ∃ q ∈ ps, isHead q.node := by
      rintro hn ⟨q, hq, hhead⟩
      rcases List.mem_cons.mp hq with rfl | hq
      · exact absurd hhead hn
      · exact ⟨q, hq, hhead⟩
    unfold typeParts
    split
    · rename_i hkind
      refine hp.doc.bind fun d hd => ?_
      split
      · exact .throw _
      · rename_i next more
        refine hrest.bind ?_
        rintro parts ⟨hparts, hhead⟩
        have hgap := keeps_separator (some kind) .standard (some next.node) p next
        have hmodifiers := KeepsAll.cons hgap (hparts.modifiers.mono (by decide) le_rfl)
        exact .pure ⟨⟨.cons hd hmodifiers, hparts.head, hparts.clauses, hparts.body⟩,
          fun hn => hhead (hbehind (fun hp => hp.1 hkind) hn)⟩
    · split
      · rename_i hclause
        refine hp.doc.bind fun d hd => hrest.bind ?_
        rintro parts ⟨hparts, hhead⟩
        refine .pure ⟨⟨hparts.modifiers, hparts.head, ?_, hparts.body⟩, fun hn => hhead (hbehind ?_ hn)⟩
        · exact List.forall_mem_cons.mpr ⟨hd, hparts.clauses⟩
        · rintro ⟨-, hp, -⟩
          exact absurd hclause (by simpa [Piece.kind] using hp)
      · split
        · rename_i hbody
          refine hp.doc.bind fun d hd => hrest.bind ?_
          rintro parts ⟨hparts, hhead⟩
          refine .pure ⟨⟨hparts.modifiers, hparts.head, hparts.clauses, ?_⟩,
            fun hn => hhead (hbehind ?_ hn)⟩
          · rintro e ⟨⟩
            have hothers := hparts.body
            cases hfound : parts.body with
            | none => exact hd
            | some f => exact hothers f hfound
          · rintro ⟨-, -, hp⟩
            exact absurd hbody (by simpa [Piece.kind] using hp)
        · refine hrest.bind ?_
          rintro parts ⟨hparts, -⟩
          refine .pure ⟨⟨hparts.modifiers, ?_, hparts.clauses, hparts.body⟩, by simp⟩
          exact List.forall_mem_cons.mpr ⟨hp, hparts.head⟩

/-- The declaration of a type is firm. -/
theorem Site.Firm.typeDeclaration (h : s.Firm) (hhead : ∃ p ∈ s.children, isHead p.node) :
    Ensures s.typeDeclaration Doc.Firm := by
  refine (ensures_typeParts s.node.kind h.children).bind ?_
  rintro parts ⟨hparts, hne⟩
  refine (ensures_sequence s.node.kind .ofTypeHead hparts.head (hne hhead)).bind fun head hd => ?_
  have hheader : Doc.Firm (if parts.clauses.isEmpty then head
      else grouped [head, indented (parts.clauses.map fun clause => cat [space, clause])]) := by
    split
    · exact hd
    · have hclauses : KeepsAll 0 0 (parts.clauses.map fun clause => cat [space, clause]) := by
        refine .of_forall fun e he => ?_
        obtain ⟨clause, hclause, rfl⟩ := List.mem_map.mp he
        exact keeps_cat.mpr (.cons keeps_space (.single (hparts.clauses clause hclause).below))
      exact keeps_grouped.mpr (.cons hd (.single (keeps_indented.mpr hclauses)))
  have hbody : Keeps 0 0 (parts.body.getD (.text "")) := by
    have hbody := hparts.body
    cases hfound : parts.body with
    | none => exact keeps_empty
    | some e => exact (hbody e hfound).behind
  refine .pure (keeps_cat.mpr (hparts.modifiers.append ?_))
  exact .cons hheader (.cons keeps_blank (.single hbody))

/-- Constants one a line: each but the first may stand below a blank line. -/
def Constants (n : Nat) (ds : List Doc) : Prop :=
  ∀ first rest, ds = first :: rest → Keeps n 0 first ∧ ∀ d ∈ rest, Keeps 1 0 d

/-- Firm constants are firm together, or go on with the current one. -/
theorem ensures_enumConstants (source : Source) {n : Nat} (hn : n ≤ 2) {current : Option Doc}
    (hcurrent : ∀ d ∈ current, Keeps n 0 d) (h : ∀ p ∈ ps, p.Firm) :
    Ensures (enumConstants source current ps) (Constants n) := by
  induction ps generalizing n current with
  | nil =>
    refine .pure fun first rest hlist => ?_
    obtain ⟨rfl, rfl⟩ : current = some first ∧ rest = [] := by
      cases current <;> simp_all
    exact ⟨hcurrent first rfl, by simp⟩
  | cons p ps ih =>
    obtain ⟨hp, hps⟩ := List.forall_mem_cons.mp h
    by_cases hkind : p.kind = .enumBodyDeclarations
    · rw [enumConstants_cons_of_declarations source current ps hkind]
      exact ih hn hcurrent hps
    rcases enumConstants_cons source current ps hkind with ⟨c, rfl, -, heq⟩ | ⟨-, heq⟩
    all_goals rw [heq]
    · have hsign : Firm (.text ",") := firm_inline (by decide)
      refine ih hn ?_ hps
      rintro e ⟨⟩
      exact keeps_cat.mpr (.cons (hcurrent c rfl) (.single hsign.behind))
    · refine hp.doc.bind fun d hd => ?_
      cases current with
      | none =>
        refine (ih hn ?_ hps).bind fun ds hds => .pure hds
        rintro e ⟨⟩
        exact hd.at hn
      | some c =>
        have hspaced : Keeps 1 0
            (if (some c).isSome && hasBlankLineBefore source p then cat [hardline, d] else d) := by
          split
          · exact keeps_cat.mpr (.cons keeps_blankLine (.single hd))
          · exact hd.below
        refine (ih (n := 1) (by decide) ?_ hps).bind fun ds hds => .pure ?_
        · rintro e ⟨⟩
          exact hspaced
        · rintro first rest ⟨⟩
          refine ⟨hcurrent c rfl, ?_⟩
          cases ds with
          | nil => simp
          | cons d ds => exact List.forall_mem_cons.mpr (hds d ds rfl)

/-- The body of an enum is firm. -/
theorem Site.Firm.enumBody (h : s.Firm) : Ensures s.enumBody Doc.Firm := by
  refine (ensures_enumConstants s.source (n := 2) le_rfl (by simp) h.unbraced).bind fun ds hds => ?_
  have hjoined : ∀ d rest, ds = d :: rest → Doc.Firm (join hardline ds) := by
    rintro d rest rfl
    obtain ⟨hd, hrest⟩ := hds d rest rfl
    exact keeps_join.mpr (.interleave hd keeps_hardline hrest)
  split
  · rename_i declarations hfound
    have hmem := List.mem_reverse.mp (List.mem_of_find?_eq_some hfound)
    have hinner : Keeps 2 2 (join hardline ds) := by
      cases ds with
      | nil => exact keeps_join.mpr .nil
      | cons d rest => exact (hjoined d rest rfl).mono le_rfl (by decide)
    refine (h.unbraced declarations hmem).doc.bind fun d hd => .pure (firm_braces h.comments ?_)
    rintro e he
    obtain rfl : e = cat [join hardline ds, d] := by simpa using he
    exact keeps_cat.mpr (.cons hinner (.single hd))
  · refine .pure (firm_braces h.comments ?_)
    cases ds with
    | nil => simp
    | cons d rest => simpa using hjoined d rest rfl

/-- The declarations of an enum are firm. -/
theorem Site.Firm.enumDeclarations (h : s.Firm) : Ensures s.enumDeclarations Doc.Firm := by
  have hsemicolon : Doc.Firm (.text ";") := firm_inline (by decide)
  unfold Site.enumDeclarations
  split
  · exact .pure hsemicolon
  · rename_i hne
    refine (ensures_members s.source Gap.ofMembers
      (fun p hp => h.children p (List.mem_of_mem_drop hp)) hne).bind fun d hd => .pure ?_
    exact keeps_cat.mpr
      (.cons hsemicolon (.cons keeps_hardline (.cons keeps_blankLine (.single hd))))

/-- The dimensions of an array are firm. -/
theorem Site.Firm.dimensions (h : s.Firm) (hne : s.children ≠ []) :
    Ensures s.dimensions Doc.Firm := by
  refine (ensures_tight h.children hne).bind fun d hd => ?_
  split
  · exact .pure (keeps_cat.mpr (.cons keeps_blank (.single hd)))
  · exact .pure hd

/-! ## Modifiers -/

/-- Behind a modifier stands one line feed at most. -/
theorem keepsAll_modifierBreak (owner : Option NodeKind) (p : Piece)
    (printed : List AttachedComment) (following : Option Tree) :
    KeepsAll 0 1 (modifierBreak owner p printed following) := by
  unfold modifierBreak
  split
  · exact KeepsAll.nil.mono le_rfl (by decide)
  · split
    · exact .single keeps_hardline
    · exact .single keeps_gap

/-- Firm modifiers and the comments among them may stand anywhere and end visibly. -/
theorem ensures_modifierParts (owner : Option NodeKind) {pending : List AttachedComment}
    (hpending : ∀ a ∈ pending, Firm a.comment.doc) (h : ∀ p ∈ ps, p.Firm) (hne : ps ≠ []) :
    Ensures (modifierParts owner pending ps) (KeepsAll 2 0) := by
  induction ps generalizing pending with
  | nil => exact absurd rfl hne
  | cons p ps ih =>
    obtain ⟨hp, hps⟩ := List.forall_mem_cons.mp h
    have hprinted : ∀ following, KeepsAll 0 0
        ((pending.takeWhile (comesBefore following)).flatMap modifierComment) := by
      refine fun following => keepsAll_flatMap fun a ha => ?_
      have hfirm := hpending a ((List.takeWhile_sublist _).mem ha)
      exact .cons keeps_blank (.single hfirm.behind)
    unfold modifierParts
    refine hp.doc.bind fun d hd => ?_
    cases ps with
    | nil =>
      refine .pure ?_
      simpa [modifierBreak] using KeepsAll.cons hd (hprinted none)
    | cons q qs =>
      have hleft : ∀ a ∈ pending.dropWhile (comesBefore (some q.node)), Firm a.comment.doc :=
        fun a ha => hpending a ((List.dropWhile_sublist _).mem ha)
      refine (ih hleft hps (by simp)).bind fun ds hds => .pure ?_
      have hfirst := (KeepsAll.cons hd (hprinted (some q.node))).append
        (keepsAll_modifierBreak owner p
          (pending.takeWhile (comesBefore (some q.node))) (some q.node))
      exact hfirst.append (hds.mono (by decide) le_rfl)

/-- A list of modifiers is firm. -/
theorem Site.Firm.modifiers (h : s.Firm) (hne : s.children ≠ []) :
    Ensures s.modifiers Doc.Firm :=
  (ensures_modifierParts s.parent h.comments.dangling h.children hne).bind fun _ hds =>
    .pure (keeps_cat.mpr hds)

/-! ## Operators -/

/-- An assignment with a firm right side is firm. -/
theorem ensures_assignment {left : Doc} {operator : String} (hleft : Keeps 2 2 left)
    (hoperator : Firm (.text operator)) (h : p.Firm) :
    Ensures (assignment left operator p) Firm := by
  refine h.doc.bind fun d hd => ?_
  split
  · have hvalue : Keeps 0 0 (indented [space, d]) :=
      keeps_indented.mpr (.cons keeps_space (.single hd.below))
    exact .pure (keeps_grouped.mpr
      (.cons hleft (.cons keeps_blank (.cons hoperator (.single hvalue)))))
  · exact .pure (keeps_cat.mpr
      (.cons hleft (.cons keeps_blank (.cons hoperator (.cons keeps_blank (.single hd.behind))))))

/-- An assignment expression is firm. -/
theorem Site.Firm.assignment (h : s.Firm) : Ensures s.assignment Doc.Firm := by
  have hchildren := h.children
  unfold Site.assignment
  split
  · rename_i left operator right hlist
    rw [hlist] at hchildren
    have hoperator : Doc.Firm (.text (if operator.text.isEmpty then "=" else operator.text)) := by
      split
      · exact firm_inline (by decide)
      · rename_i hne
        exact (hchildren operator (by simp)).text.resolve_left (by simpa using hne)
    refine (hchildren left (by simp)).doc.bind fun d hd => ?_
    exact ensures_assignment (hd.mono le_rfl (by decide)) hoperator (hchildren right (by simp))
  · exact .throw _

/-- A declarator is firm. -/
theorem Site.Firm.variableDeclarator (h : s.Firm) (hne : s.children ≠ []) :
    Ensures s.variableDeclarator Doc.Firm := by
  have hsign : Doc.Firm (.text "=") := firm_inline (by decide)
  have hleft : ∀ p ∈ s.children.takeWhile fun p => !p.isToken "=", p.Firm :=
    fun p hp => h.children p ((List.takeWhile_sublist _).mem hp)
  have hall := List.takeWhile_append_dropWhile (p := fun p => !p.isToken "=") (l := s.children)
  unfold Site.variableDeclarator
  refine (ensures_docs hleft).bind ?_
  rintro ds ⟨hlength, hds⟩
  split
  · rename_i hright
    rw [hright, List.append_nil] at hall
    rw [hall] at hlength
    refine .pure (keeps_cat.mpr (.of_firm hds ?_))
    rintro rfl
    exact hne (List.length_eq_zero_iff.mp hlength.symm)
  · rename_i sign right more hright
    have hmem : right ∈ s.children := by
      rw [← hall, hright]
      simp
    refine ensures_assignment (keeps_cat.mpr ?_) hsign (h.children right hmem)
    exact .of_forall fun d hd => (hds d hd).mono le_rfl (by decide)
  · exact .throw _

/-- An operator and its operand go on with a line. -/
theorem keeps_operation {operator : String} {operand : Doc} (ho : Keeps 0 0 (.text operator))
    (hd : Firm operand) : Keeps 0 0 (operation operator operand) :=
  keeps_cat.mpr (.cons keeps_blank (.cons ho (.cons keeps_space (.single hd.below))))

/-- The operation of a link goes on behind something visible. -/
theorem OperatorLink.Firm.operation {l : OperatorLink} (h : l.Firm) :
    Ensures l.doc (Keeps 0 0) := by
  refine h.parts.bind ?_
  rintro ⟨operator, operand⟩ ⟨ho, hd⟩
  exact .pure (keeps_operation ho (keeps_cat.mpr (.cons hd (.single h.trailing))))

/-- The link that a binary expression ends with is firm. -/
theorem firm_operatorLink {comments : NodeComments} (hc : comments.Firm) (h : ∀ p ∈ ps, p.Firm) :
    (operatorLink comments ps).Firm where
  parts := by
    unfold operatorLink operatorParts
    dsimp only
    split
    · rename_i left operator right
      refine (h right (by simp)).doc.bind fun d hd => .pure ⟨?_, hd⟩
      exact (h operator (by simp)).keeps_text (Nat.zero_le 2)
    · exact .throw _
  leading := hc.keeps_leadingDoc
  trailing := keeps_trailingDoc hc.trailing

/-- The chain of a binary expression is firm. -/
theorem ensures_operatorChain {comments : NodeComments} (hc : comments.Firm)
    (h : ∀ p ∈ ps, p.Firm) : Ensures (operatorChain comments ps) OperatorChain.Firm := by
  have hlink := firm_operatorLink hc h
  unfold operatorChain
  split
  · rename_i left operator more
    have hleft : left.Firm := h left (by simp)
    split
    · rename_i level hlevel
      have halone : OperatorChain.Firm
          ⟨level, left.doc, [], operatorLink comments (left :: operator :: more)⟩ :=
        ⟨hleft.doc, by simp, hlink⟩
      unfold extendChain
      split
      · exact .pure halone
      · rename_i found hfound
        refine (hleft.operators found hfound).bind fun chain hchain => ?_
        split
        · refine .pure ⟨hchain.first, ?_, hlink⟩
          exact List.forall_mem_append.mpr ⟨hchain.inner, by simpa using hchain.last⟩
        · exact .pure halone
    · exact .throw _
  · exact .throw _

/-- A binary expression is firm. -/
theorem Site.Firm.binary (h : s.Firm) : Ensures s.binary Doc.Firm := by
  refine (ensures_operatorChain h.comments h.children).bind fun chain hchain => ?_
  refine hchain.first.bind fun first hfirst => ?_
  refine (ensures_mapM fun l hl => (hchain.inner l hl).operation).bind ?_
  rintro inner ⟨-, hinner⟩
  refine hchain.last.parts.bind ?_
  rintro ⟨operator, operand⟩ ⟨ho, hd⟩
  have hleading : KeepsAll 2 2 (chain.inner.reverse.map OperatorLink.leading) := by
    refine .of_forall fun d hd => ?_
    obtain ⟨l, hl, rfl⟩ := List.mem_map.mp hd
    exact (hchain.inner l (List.mem_reverse.mp hl)).leading
  have hrest : KeepsAll 0 0 (inner ++ [operation operator operand]) :=
    (KeepsAll.of_forall hinner).append (.single (keeps_operation ho hd))
  dsimp only
  split
  · exact .pure (keeps_cat.mpr (hleading.append (.single (keeps_grouped.mpr (.cons hfirst hrest)))))
  · have hindented := KeepsAll.single (keeps_indented.mpr hrest)
    exact .pure (keeps_cat.mpr
      (hleading.append (.single (keeps_grouped.mpr (.cons hfirst hindented)))))

/-- A conditional expression is firm. -/
theorem Site.Firm.ternary (h : s.Firm) : Ensures s.ternary Doc.Firm := by
  have hmark : Doc.Firm (.text "? ") := firm_text (by decide) (by decide)
  have hcolon : Doc.Firm (.text ": ") := firm_text (by decide) (by decide)
  have hchildren := h.children
  unfold Site.ternary
  split
  · rename_i condition mark consequence colon alternative hlist
    rw [hlist] at hchildren
    refine (hchildren condition (by simp)).doc.bind fun c hc => ?_
    refine (hchildren consequence (by simp)).doc.bind fun d hd => ?_
    refine (hchildren alternative (by simp)).doc.bind fun e he => .pure ?_
    have hbranches : Keeps 0 0 (indented [space, .text "? ", d, space, .text ": ", e]) :=
      keeps_indented.mpr (.cons keeps_space (.cons hmark.below
        (.cons hd.behind (.cons keeps_space (.cons hcolon.below (.single he.behind))))))
    exact keeps_grouped.mpr (.cons hc (.single hbranches))
  · exact .throw _

/-- A parenthesized expression is firm. -/
theorem Site.Firm.parenthesized (h : s.Firm) : Ensures s.parenthesized Doc.Firm := by
  have hopen : Doc.Firm (.text "(") := firm_inline (by decide)
  have hclose : Doc.Firm (.text ")") := firm_inline (by decide)
  refine (ensures_docs h.named).bind ?_
  rintro ds ⟨-, hds⟩
  have hcontents : KeepsAll 1 1 ds :=
    .of_forall fun d hd => (hds d hd).mono (by decide) (by decide)
  have hinside : Keeps 0 1 (indented (softline :: ds)) :=
    keeps_indented.mpr (.cons keeps_softline hcontents)
  exact .pure (keeps_grouped.mpr
    (.cons hopen (.cons hinside (.cons (paced_softline le_rfl) (.single hclose)))))

/-- A unary expression is firm. -/
theorem Site.Firm.unary (h : s.Firm) : Ensures s.unary Doc.Firm := by
  have hchildren := h.children
  unfold Site.unary
  split
  · rename_i operator operand hlist
    rw [hlist] at hchildren
    refine (hchildren operand (by simp)).doc.bind fun d hd => .pure ?_
    have hgap : Keeps 2 2 (.text
        (if wouldFuse operator.text operand.node.firstLeaf.text then " " else "")) := by
      split
      · exact keeps_blank
      · exact keeps_empty
    exact keeps_cat.mpr
      (.cons ((hchildren operator (by simp)).keeps_text le_rfl) (.cons hgap (.single hd)))
  · exact .throw _

/-! ## Calls -/

/-- The last of some firm documents may be a group of its own. -/
theorem firm_groupLast {ds : List Doc} (h : ∀ d ∈ ds, Firm d) : ∀ d ∈ groupLast ds, Firm d := by
  induction ds with
  | nil => simp [groupLast]
  | cons d ds ih =>
    obtain ⟨hd, hds⟩ := List.forall_mem_cons.mp h
    cases ds with
    | nil =>
      have hlast : Firm (grouped [d]) := keeps_grouped.mpr (.single hd)
      simpa [groupLast] using hlast
    | cons e es => exact List.forall_mem_cons.mpr ⟨hd, ih hds⟩

/-- The arguments of a call are firm. -/
theorem Site.Firm.arguments (h : s.Firm) : Ensures s.arguments Doc.Firm := by
  have hstyle : ListStyle.parenthesized.Firm :=
    ListStyle.firm_of_inline (by decide) (by decide) (by decide)
  have hlisted := h.delimited hstyle
  refine Ensures.bind (P := fun _ => True) (fun _ _ => trivial) fun hugs _ => ?_
  split
  · refine (ensures_docs h.named).bind ?_
    rintro ds ⟨-, hds⟩
    refine hlisted.bind fun listed hd => .pure (.choice ?_ hd)
    have hcommas := keeps_commas (firm_groupLast hds)
    exact keeps_cat.mpr (.cons hstyle.opening (.cons hcommas (.single hstyle.closing.behind)))
  · exact hlisted

/-- The comments that go in front of the dot, and the parts behind them. -/
theorem ensures_callParts (h : ∀ p ∈ ps, p.Firm) :
    Ensures (callParts ps) fun parts => KeepsAll 2 2 parts.1 ∧ parts.2.length = ps.length ∧
      ∀ d ∈ parts.2, Firm d := by
  induction ps with
  | nil => exact .pure ⟨.nil, rfl, by simp⟩
  | cons p ps ih =>
    obtain ⟨hp, hps⟩ := List.forall_mem_cons.mp h
    unfold callParts
    split
    · refine hp.docWithoutLeading.bind fun d hd => (ih hps).bind ?_
      rintro ⟨hoisted, parts⟩ ⟨hhoisted, hlength, hparts⟩
      refine .pure ⟨hhoisted.append (.single hp.comments.keeps_leadingDoc), ?_, ?_⟩
      · simpa using hlength
      · exact List.forall_mem_cons.mpr ⟨hd, hparts⟩
    · refine hp.doc.bind fun d hd => (ih hps).bind ?_
      rintro ⟨hoisted, parts⟩ ⟨hhoisted, hlength, hparts⟩
      refine .pure ⟨hhoisted, by simpa using hlength, ?_⟩
      exact List.forall_mem_cons.mpr ⟨hd, hparts⟩

/-- A call without its receiver is firm if there is anything behind the receiver. -/
theorem ensures_callDoc (h : ∀ p ∈ ps, p.Firm) (hne : ps.drop 1 ≠ []) :
    Ensures (callDoc ps) Firm := by
  refine (ensures_callParts fun p hp => h p (List.mem_of_mem_drop hp)).bind ?_
  rintro ⟨hoisted, parts⟩ ⟨hhoisted, hlength, hparts⟩
  refine .pure (keeps_cat.mpr (hhoisted.append (.of_firm hparts ?_)))
  rintro rfl
  exact hne (List.length_eq_zero_iff.mp hlength.symm)

/-- The chain that a call with a receiver is. -/
theorem firm_callChain {comments : NodeComments} (hc : comments.Firm) (h : ∀ p ∈ ps, p.Firm)
    {chain : CallChain} (hchain : callChain? comments ps = some chain) : chain.Firm := by
  obtain ⟨receiver, dot, rest, rfl, -, hchain⟩ := exists_receiver hchain
  have hreceiver : receiver.Firm := h receiver (by simp)
  have hlink : (callLink comments (receiver :: dot :: rest)).Firm :=
    ⟨ensures_callDoc h (by simp), hc.keeps_leadingDoc, keeps_trailingDoc hc.trailing⟩
  rcases hchain with ⟨inner, hinner, rfl⟩ | rfl
  · have hfirm := hreceiver.calls inner hinner
    exact ⟨hfirm.head, List.forall_mem_append.mpr ⟨hfirm.inner, by simpa using hfirm.last⟩, hlink⟩
  · exact ⟨hreceiver.doc, by simp, hlink⟩

/-- A link of a chain of calls is firm with its comments. -/
theorem CallLink.Firm.wrapped {l : CallLink} (h : l.Firm) : Ensures l.wrapped Doc.Firm :=
  h.doc.bind fun _ hd => .pure (keeps_cat.mpr (.cons hd (.single h.trailing)))

/-- A receiver and its calls, one a line or not. -/
theorem firm_brokenCalls (headKind : NodeKind) {head : Doc} (hhead : Firm head) {links : List Doc}
    (hlinks : ∀ d ∈ links, Firm d) : Firm (brokenCalls headKind head links) := by
  have hkept : Firm (if keepsFirstCall headKind then cat (head :: links.take 1) else head) := by
    split
    · refine keeps_cat.mpr (.cons hhead (.of_forall fun d hd => ?_))
      exact (hlinks d (List.mem_of_mem_take hd)).behind
    · exact hhead
  have hbroken : KeepsAll 0 0 ((links.drop (if keepsFirstCall headKind then 1 else 0)).map
      fun link => cat [softline, link]) := by
    refine .of_forall fun d hd => ?_
    obtain ⟨link, hlink, rfl⟩ := List.mem_map.mp hd
    exact keeps_cat.mpr (.cons keeps_softline (.single (hlinks link (List.mem_of_mem_drop hlink)).below))
  exact keeps_grouped.mpr (.cons hkept (.single (keeps_indented.mpr hbroken)))

/-- A chain of calls is firm. -/
theorem CallChain.Firm.doc {c : CallChain} (h : c.Firm) : Ensures c.doc Doc.Firm := by
  refine (ensures_mapM fun l hl => (h.inner l hl).wrapped).bind ?_
  rintro inner ⟨-, hinner⟩
  refine h.last.doc.bind fun last hlast => h.head.bind fun head hhead => .pure ?_
  have hleading : KeepsAll 2 2 (c.inner.reverse.map CallLink.leading) := by
    refine .of_forall fun d hd => ?_
    obtain ⟨l, hl, rfl⟩ := List.mem_map.mp hd
    exact (h.inner l (List.mem_reverse.mp hl)).leading
  have hlinks : ∀ d ∈ inner ++ [last], Doc.Firm d :=
    List.forall_mem_append.mpr ⟨hinner, by simpa using hlast⟩
  exact keeps_cat.mpr (hleading.append (.single (firm_brokenCalls c.headKind hhead hlinks)))

/-- The invocation of a method is firm. -/
theorem Site.Firm.methodInvocation (h : s.Firm) (hne : s.children ≠ []) :
    Ensures s.methodInvocation Doc.Firm := by
  unfold Site.methodInvocation
  split
  · rename_i chain hchain
    split
    · exact ensures_tight h.children hne
    · exact (firm_callChain h.comments h.children hchain).doc
  · exact ensures_tight h.children hne

/-! ## Control flow -/

/-- The statement that a header is for stands behind the header or below it. -/
theorem ensures_headedBody (header : List Piece) (h : p.Firm) :
    Ensures (headedBody header p) (Keeps 0 0) := by
  unfold headedBody
  split
  · split
    · exact .throw _
    · rename_i last hlast
      exact h.doc.bind fun d hd =>
        .pure (keeps_cat.mpr (.cons (keeps_continuation last) (.single hd.below)))
  · split
    · exact .pure (firm_inline (by decide)).behind
    · refine h.doc.bind fun d hd => ?_
      split
      · exact .pure (keeps_indented.mpr (.cons keeps_hardline (.single hd.below)))
      · have hinside : Keeps 0 0 (indented [space, d]) :=
          keeps_indented.mpr (.cons keeps_space (.single hd.below))
        exact .pure (keeps_grouped.mpr (.single hinside))

/-- In front of a keyword stands one line feed at most. -/
theorem keeps_beforeKeyword (body : Piece) : Keeps 0 1 (beforeKeyword body) := by
  unfold beforeKeyword
  split
  · exact keeps_continuation body
  · exact keeps_hardline

/-- An alternative goes on behind something visible. -/
theorem ensures_elseParts (consequence : Piece) (h : ∀ p ∈ ps, p.Firm) :
    Ensures (elseParts consequence ps) (KeepsAll 0 0) := by
  match ps, h with
  | [], _ => exact .pure .nil
  | [_], _ => exact .throw _
  | keyword :: alternative :: _, h =>
    have halternative : alternative.Firm := h alternative (by simp)
    have hparts : Ensures (alternativeParts keyword alternative) (KeepsAll 0 0) := by
      unfold alternativeParts
      split
      · exact halternative.doc.bind fun d hd => .pure (.cons keeps_blank (.single hd.behind))
      · exact (ensures_headedBody [keyword] halternative).bind fun d hd => .pure (.single hd)
    refine (h keyword (by simp)).doc.bind fun d hd => hparts.bind fun ds hds => .pure ?_
    exact .cons (keeps_beforeKeyword consequence) (.cons hd.below hds)

/-- A conditional statement is firm. -/
theorem Site.Firm.ifStatement (h : s.Firm) : Ensures s.ifStatement Doc.Firm := by
  have hchildren := h.children
  unfold Site.ifStatement
  split
  · rename_i keyword condition consequence more hlist
    rw [hlist] at hchildren
    have hmore : ∀ p ∈ more, p.Firm := fun p hp => hchildren p (by simp [hp])
    refine (hchildren keyword (by simp)).doc.bind fun first hfirst => ?_
    refine (hchildren condition (by simp)).doc.bind fun test htest => ?_
    refine (ensures_headedBody [keyword, condition] (hchildren consequence (by simp))).bind
      fun body hbody => ?_
    refine (ensures_elseParts consequence hmore).bind fun rest hrest => .pure ?_
    exact keeps_cat.mpr (.cons hfirst (.cons keeps_blank (.cons htest.behind (.cons hbody hrest))))
  · exact .throw _

/-- A loop is firm. -/
theorem Site.Firm.loop (h : s.Firm) (hlong : 2 ≤ s.children.length) :
    Ensures s.loop Doc.Firm := by
  have hheader : ∀ p ∈ s.children.dropLast, p.Firm :=
    fun p hp => h.children p (List.mem_of_mem_dropLast hp)
  have hne : s.children.dropLast ≠ [] := by
    rw [← List.length_pos_iff, List.length_dropLast]
    omega
  unfold Site.loop
  split
  · exact .throw _
  · rename_i body hbody
    have hfirm := h.children body (List.mem_of_getLast? hbody)
    refine (ensures_sequence s.node.kind .standard hheader hne).bind fun head hhead => ?_
    refine (ensures_headedBody s.children.dropLast hfirm).bind fun d hd => .pure ?_
    exact keeps_cat.mpr (.cons hhead (.single hd))

/-- A loop with its condition at the end is firm. -/
theorem Site.Firm.doLoop (h : s.Firm) (hlong : 3 ≤ s.children.length) :
    Ensures s.doLoop Doc.Firm := by
  have hchildren := h.children
  unfold Site.doLoop
  split
  · rename_i keyword body tail hlist
    rw [hlist] at hchildren hlong
    have htail : tail ≠ [] := by
      rintro rfl
      simp at hlong
    refine (hchildren keyword (by simp)).doc.bind fun first hfirst => ?_
    refine (ensures_headedBody [keyword] (hchildren body (by simp))).bind fun statement hstatement => ?_
    refine (ensures_sequence s.node.kind .standard
      (fun p hp => hchildren p (by simp [hp])) htail).bind fun rest hrest => .pure ?_
    exact keeps_cat.mpr (.cons hfirst (.cons hstatement
      (.cons (keeps_beforeKeyword body) (.single hrest.below))))
  · exact .throw _

/-- Labels that are firm, of which there is one if there was one already. -/
theorem ensures_switchLabels {labels : List Doc} (lastLabel : Option Piece)
    (hlabels : ∀ d ∈ labels, Firm d) (hne : labels ≠ []) (h : ∀ p ∈ ps, p.Firm) :
    Ensures (switchLabels labels lastLabel ps) fun g => g.labels ≠ [] ∧
      (∀ d ∈ g.labels, Firm d) ∧ ∀ p ∈ g.statements, p.Firm := by
  induction ps generalizing labels lastLabel with
  | nil =>
    unfold switchLabels
    exact .pure ⟨hne, hlabels, by simp⟩
  | cons p ps ih =>
    obtain ⟨hp, hps⟩ := List.forall_mem_cons.mp h
    rcases switchLabels_cons labels lastLabel p ps with
      ⟨label, before, rfl, -, heq⟩ | ⟨-, ⟨-, heq⟩ | ⟨-, heq⟩⟩
    all_goals rw [heq]
    · obtain ⟨hlabel, hbefore⟩ := List.forall_mem_cons.mp hlabels
      have hcolon : Firm (.text ":") := firm_inline (by decide)
      have hclosed : Firm (cat [label, .text ":"]) :=
        keeps_cat.mpr (.cons hlabel (.single hcolon.behind))
      exact ih lastLabel (List.forall_mem_cons.mpr ⟨hclosed, hbefore⟩) (by simp) hps
    · exact hp.doc.bind fun d hd =>
        ih (some p) (List.forall_mem_cons.mpr ⟨hd, hlabels⟩) (by simp) hps
    · exact .pure ⟨hne, hlabels, h⟩

/-- A group of a switch is firm. -/
theorem Site.Firm.switchGroup (h : s.Firm)
    (hlabel : ∃ p rest, s.children = p :: rest ∧ p.kind = .switchLabel) :
    Ensures s.switchGroup Doc.Firm := by
  obtain ⟨p, rest, hlist, hkind⟩ := hlabel
  have hchildren := h.children
  rw [hlist] at hchildren
  obtain ⟨hp, hrest⟩ := List.forall_mem_cons.mp hchildren
  have hgroup : Ensures (switchLabels [] none s.children) fun g => g.labels ≠ [] ∧
      (∀ d ∈ g.labels, Doc.Firm d) ∧ ∀ p ∈ g.statements, p.Firm := by
    rw [hlist]
    unfold switchLabels
    dsimp only
    rw [if_pos hkind]
    exact hp.doc.bind fun d hd => ensures_switchLabels (some p) (by simpa using hd) (by simp) hrest
  refine hgroup.bind ?_
  rintro g ⟨hne, hlabels, hstatements⟩
  have hhead : Doc.Firm (join hardline g.labels.reverse) :=
    Firm.join keeps_hardline (by decide) (fun d hd => hlabels d (List.mem_reverse.mp hd))
      (by simpa using hne)
  have hbelow : ∀ d, Doc.Firm d → Doc.Firm
      (cat [join hardline g.labels.reverse, indented [hardline, d]]) := by
    intro d hd
    have hinside : Keeps 0 0 (indented [hardline, d]) :=
      keeps_indented.mpr (.cons keeps_hardline (.single hd.below))
    exact keeps_cat.mpr (.cons hhead (.single hinside))
  dsimp only
  split
  · exact .pure hhead
  · rename_i statement hone
    rw [hone] at hstatements
    have hstatement : statement.Firm := hstatements statement (by simp)
    split
    · refine hstatement.doc.bind fun d hd => .pure ?_
      have hgap : ∀ b : Bool, Keeps 0 1 (if b then hardline else .text " ") := by
        intro b
        cases b
        · exact keeps_gap
        · exact keeps_hardline
      exact keeps_cat.mpr (.cons hhead (.cons (hgap _) (.single hd.below)))
    · exact (ensures_members s.source Gap.none hstatements (by simp)).bind fun d hd =>
        .pure (hbelow d hd)
  · rename_i hnil hone
    exact (ensures_members s.source Gap.none hstatements hnil).bind fun d hd => .pure (hbelow d hd)

end JavaFormat.Layout
