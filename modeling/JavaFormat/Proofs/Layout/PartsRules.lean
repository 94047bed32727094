import JavaFormat.Proofs.Layout.FirmTrees
import JavaFormat.Proofs.Layout.Parts
import JavaFormat.Proofs.Layout.Sites

/-!
# Every rule prints the parts of its node

What is printed for a node other than a leaf is within what is printed for the node above
it: no rule leaves out a child that is no token, and the rules that sort their children or
pick some of them by position find it where the grammar puts it. By induction on the tree
it is within the document of the whole source, unless the node ends a chain of operators or
calls, whose links are laid out by the node at the end of the chain.
-/

namespace JavaFormat.Layout

open Doc

variable {part : Doc} {s : Site} {p : Piece} {ps : List Piece}

/-! ## Children on one line -/

/-- A part that is carried is among what a sequence puts behind a piece. -/
theorem among_sequenceAfter (owner : NodeKind) (spacing : Spacing) (previous : Piece)
    (h : Carried part ps) : Ensures (sequenceAfter owner spacing previous ps) part.Among := by
  induction ps generalizing previous with
  | nil => exact absurd h not_carried_nil
  | cons p ps ih =>
    unfold sequenceAfter
    rcases carried_cons_iff.mp h with hp | hps
    · exact hp.doc.bind fun d hd => (ensures_true _).bind fun ds _ => .pure ((hd.head ds).cons _)
    · exact (ensures_true _).bind fun d _ =>
        (ih p hps).bind fun ds hds => .pure ((hds.cons d).cons _)

/-- A part that is carried is within the sequence. -/
theorem within_sequence (owner : NodeKind) (spacing : Spacing) (h : Carried part ps) :
    Ensures (sequence owner spacing ps) part.Within := by
  cases ps with
  | nil => exact absurd h not_carried_nil
  | cons p ps =>
    rcases carried_cons_iff.mp h with hp | hps
    · exact hp.doc.bind fun d hd => (ensures_true _).bind fun ds _ => .pure (hd.head ds).cat
    · exact (ensures_true _).bind fun d _ =>
        (among_sequenceAfter owner spacing p hps).bind fun ds hds => .pure (hds.cons d).cat

/-- A part that is carried is among what is printed tight behind a piece. -/
theorem among_tightAfter (previous : Piece) (h : Carried part ps) :
    Ensures (tightAfter previous ps) part.Among := by
  induction ps generalizing previous with
  | nil => exact absurd h not_carried_nil
  | cons p ps ih =>
    unfold tightAfter
    rcases carried_cons_iff.mp h with hp | hps
    · exact hp.doc.bind fun d hd =>
        (ensures_true _).bind fun ds _ => .pure ((hd.head ds).append_right _)
    · exact (ensures_true _).bind fun d _ =>
        (ih p hps).bind fun ds hds => .pure ((hds.cons d).append_right _)

/-- A part that is carried is within what is printed tight. -/
theorem within_tight (h : Carried part ps) : Ensures (tight ps) part.Within := by
  cases ps with
  | nil => exact absurd h not_carried_nil
  | cons p ps =>
    rcases carried_cons_iff.mp h with hp | hps
    · exact hp.doc.bind fun d hd => (ensures_true _).bind fun ds _ => .pure (hd.head ds).cat
    · exact (ensures_true _).bind fun d _ =>
        (among_tightAfter p hps).bind fun ds hds => .pure (hds.cons d).cat

/-- A part that is carried is within the dimensions of an array. -/
theorem within_dimensions (h : Carried part s.children) : Ensures s.dimensions part.Within := by
  refine (within_tight h).bind fun d hd => ?_
  split
  · exact .pure (hd.single.cons _).cat
  · exact .pure hd

/-! ## Lists between delimiters -/

/-- A part that is among the items is among the parts of the fill. -/
theorem among_fillParts (separator : String) {ds : List Doc} (h : part.Among ds) :
    part.Among (fillParts separator ds) := by
  induction ds with
  | nil => exact h
  | cons d ds ih =>
    cases ds with
    | nil => exact h
    | cons e es =>
      rcases among_cons_iff.mp h with hd | hes
      · exact Within.head (hd.head _).cat _
      · exact ((ih hes).cons space).cons _

/-- A part that is among the items is within the body of the list. -/
theorem within_listBody (style : ListStyle) (items : List Piece) {ds : List Doc}
    (h : part.Among ds) : part.Within (listBody style items ds) := by
  unfold listBody
  split
  · exact (among_fillParts style.separator h).fill
  · exact h.join _

/-- A part that is carried is within the delimited list. -/
theorem within_delimited (style : ListStyle) (h : Carried part s.named) :
    Ensures (s.delimited style) part.Within := by
  unfold Site.delimited
  split
  · rename_i hempty
    rw [List.isEmpty_iff.mp hempty] at h
    exact absurd h not_carried_nil
  · refine (among_docs h).bind fun ds hds => ?_
    have hbody := within_listBody style s.named hds
    have hclosed : part.Within (if hasTrailingSeparator s.node style.separator then
        cat [listBody style s.named ds, style.separator] else listBody style s.named ds) := by
      split
      · exact (hbody.head _).cat
      · exact hbody
    exact .pure ((Within.head (hclosed.single.cons _).indented _).cons _).grouped

/-- A part that is carried is within the type arguments. -/
theorem within_typeArguments (h : Carried part s.named) :
    Ensures s.typeArguments part.Within := by
  refine (among_docs h).bind fun ds hds => ?_
  split
  · rename_i hempty
    rw [List.isEmpty_iff.mp hempty] at h
    exact absurd h not_carried_nil
  · exact .pure ((Within.head (hds.join _) _).cons _).cat

/-- A part that is carried is within the parenthesized expression. -/
theorem within_parenthesized (h : Carried part s.named) :
    Ensures s.parenthesized part.Within :=
  (among_docs h).bind fun _ hds => .pure ((Within.head (hds.cons _).indented _).cons _).grouped

/-- A part that is among some documents is among them when the last one is grouped. -/
theorem among_groupLast {ds : List Doc} (h : part.Among ds) : part.Among (groupLast ds) := by
  induction ds with
  | nil => exact h
  | cons d ds ih =>
    cases ds with
    | nil => exact h.grouped.single
    | cons e es =>
      rcases among_cons_iff.mp h with hd | hes
      · exact hd.head _
      · exact (ih hes).cons d

/-- A part that is carried is within the arguments of a call. -/
theorem within_arguments (h : Carried part s.named) : Ensures s.arguments part.Within := by
  have hlisted := within_delimited .parenthesized h
  unfold Site.arguments
  refine (ensures_true _).bind fun hugs _ => ?_
  split
  · refine (among_docs h).bind fun ds hds => hlisted.bind fun listed hd => .pure (.choice ?_ hd)
    exact ((Within.head ((among_groupLast hds).join _) _).cons _).cat
  · exact hlisted

/-! ## Members and bodies -/

/-- A part that is carried is among the members behind another one. -/
theorem among_membersAfter (source : Source) (gap : Gap) (previous : Tree)
    (h : Carried part ps) : Ensures (membersAfter source gap previous ps) part.Among := by
  induction ps generalizing previous with
  | nil => exact absurd h not_carried_nil
  | cons p ps ih =>
    have hmore : ∀ previous front, Ensures (do
        let d ← p.doc
        let rest ← membersAfter source gap previous ps
        return front ++ d :: rest) part.Among := by
      intro previous front
      rcases carried_cons_iff.mp h with hp | hps
      · exact hp.doc.bind fun d hd =>
          (ensures_true _).bind fun ds _ => .pure ((hd.head ds).append_right front)
      · exact (ensures_true _).bind fun d _ =>
          (ih previous hps).bind fun ds hds => .pure ((hds.cons d).append_right front)
    unfold membersAfter
    split
    · exact hmore previous []
    · exact hmore p.node (memberBreak (hasBlankLineBefore source p || gap previous p.node))

/-- A part that is carried is within the members. -/
theorem within_members (source : Source) (gap : Gap) (h : Carried part ps) :
    Ensures (members source gap ps) part.Within := by
  cases ps with
  | nil => exact absurd h not_carried_nil
  | cons p ps =>
    rcases carried_cons_iff.mp h with hp | hps
    · exact hp.doc.bind fun d hd => (ensures_true _).bind fun ds _ => .pure (hd.head ds).cat
    · exact (ensures_true _).bind fun d _ =>
        (among_membersAfter source gap p.node hps).bind fun ds hds => .pure (hds.cons d).cat

/-- A part that is carried is within the members if there are any. -/
theorem within_members? (source : Source) (gap : Gap) (h : Carried part ps) :
    Ensures (members? source gap ps) fun contents => ∃ d ∈ contents, part.Within d := by
  unfold members?
  split
  · rename_i hempty
    rw [List.isEmpty_iff.mp hempty] at h
    exact absurd h not_carried_nil
  · exact (within_members source gap h).map fun d hd => ⟨d, rfl, hd⟩

/-- What is put between braces is within them. -/
theorem within_braces (comments : NodeComments) {d : Doc} (h : part.Within d) :
    part.Within (braces comments (some d)) := by
  unfold braces
  have hbody : part.Among (comments.danglingBlock?.toList ++ (some d).toList) :=
    h.single.append_right _
  split
  · rename_i hempty
    rw [hempty] at hbody
    obtain ⟨_, hmem, -⟩ := hbody
    cases hmem
  · exact ((Within.head ((Within.single (hbody.join _)).cons _).indented _).cons _).cat

/-- A part that is carried between the braces is within the body. -/
theorem within_body (gap : Gap) (h : Carried part s.unbraced) :
    Ensures (s.body gap) part.Within := by
  refine (within_members? s.source gap h).bind ?_
  rintro _ ⟨d, rfl, hd⟩
  exact .pure (within_braces s.comments hd)

/-- A part that is carried is within the compilation unit. -/
theorem within_program (h : Carried part s.children) : Ensures s.program part.Within := by
  refine (within_members? s.source Gap.ofProgram h).bind ?_
  rintro _ ⟨d, rfl, hd⟩
  have hbody : part.Among (s.comments.danglingBlock?.toList ++ (some d).toList) :=
    hd.single.append_right _
  split
  · rename_i hempty
    rw [hempty] at hbody
    obtain ⟨_, hmem, -⟩ := hbody
    cases hmem
  · exact .pure (Within.head (hbody.join _) _).cat

/-- A part that is carried behind the semicolon is within the declarations of an enum. -/
theorem within_enumDeclarations (h : Carried part (s.children.drop 1)) :
    Ensures s.enumDeclarations part.Within := by
  unfold Site.enumDeclarations
  split
  · rename_i hempty
    rw [hempty] at h
    exact absurd h not_carried_nil
  · exact (within_members s.source Gap.ofMembers h).bind fun d hd =>
      .pure (((hd.single.cons _).cons _).cons _).cat

/-! ## Declarations of types -/

/-- The part is within one of the parts of a declaration. -/
def TypeParts.Carries (part : Doc) (parts : TypeParts) : Prop :=
  part.Among parts.modifiers ∨ Carried part parts.head ∨ part.Among parts.clauses ∨
    ∃ d ∈ parts.body, part.Within d

/-- There is no body among children that are none. -/
theorem ensures_typeParts_body (kind : NodeKind) (h : ∀ p ∈ ps, p.kind.isTypeBody = false) :
    Ensures (typeParts kind ps) fun parts => parts.body = none := by
  induction ps with
  | nil => exact .pure rfl
  | cons p ps ih =>
    obtain ⟨hp, hps⟩ := List.forall_mem_cons.mp h
    unfold typeParts
    split
    · refine (ensures_true _).bind fun d _ => ?_
      split
      · exact .throw _
      · exact (ih hps).bind fun parts hparts => .pure hparts
    · split
      · exact (ensures_true _).bind fun d _ => (ih hps).bind fun parts hparts => .pure hparts
      · rw [if_neg (by simp [hp])]
        exact (ih hps).bind fun parts hparts => .pure hparts

/-- Sorting the children of a declaration leaves none out if the body is the last one. -/
theorem ensures_typeParts_carries (kind : NodeKind) (h : Carried part ps)
    (hbody : ps.Pairwise fun p q => p.kind.isTypeBody = true → q.kind.isTypeBody = false) :
    Ensures (typeParts kind ps) (TypeParts.Carries part) := by
  induction ps with
  | nil => exact absurd h not_carried_nil
  | cons p ps ih =>
    obtain ⟨hlast, hbody⟩ := List.pairwise_cons.mp hbody
    unfold typeParts
    split
    · rcases carried_cons_iff.mp h with hp | hps
      · refine hp.doc.bind fun d hd => ?_
        split
        · exact .throw _
        · exact (ensures_true _).bind fun parts _ => .pure (.inl (hd.head _))
      · refine (ensures_true _).bind fun d _ => ?_
        split
        · exact .throw _
        · refine (ih hps hbody).bind fun parts hparts => .pure ?_
          exact hparts.imp_left fun hmodifiers => (hmodifiers.cons _).cons d
    · split
      · rcases carried_cons_iff.mp h with hp | hps
        · exact hp.doc.bind fun d hd => (ensures_true _).bind fun parts _ =>
            .pure (.inr (.inr (.inl (hd.head _))))
        · refine (ensures_true _).bind fun d _ => (ih hps hbody).bind fun parts hparts => .pure ?_
          exact hparts.imp_right (.imp_right (.imp_left fun hclauses => hclauses.cons d))
      · split
        · rename_i htype
          rcases carried_cons_iff.mp h with hp | hps
          · refine hp.doc.bind fun d hd => ?_
            have hnone := ensures_typeParts_body kind fun q hq => hlast q hq htype
            refine hnone.bind fun parts hparts => .pure (.inr (.inr (.inr ⟨d, ?_, hd⟩)))
            simp [hparts]
          · refine (ensures_true _).bind fun d _ => (ih hps hbody).bind fun parts hparts => .pure ?_
            refine hparts.imp_right (.imp_right (.imp_right ?_))
            rintro ⟨e, he, hwithin⟩
            exact ⟨e, by simp [Option.mem_def.mp he], hwithin⟩
        · rcases carried_cons_iff.mp h with hp | hps
          · exact (ensures_true _).bind fun parts _ =>
              .pure (.inr (.inl (carried_cons_iff.mpr (.inl hp))))
          · refine (ih hps hbody).bind fun parts hparts => .pure ?_
            exact hparts.imp_right (.imp_left fun hhead => carried_cons_iff.mpr (.inr hhead))

/-- A part that is carried is within the declaration of a type, which has one body at most. -/
theorem within_typeDeclaration (h : Carried part s.children)
    (hbody : s.children.Pairwise fun p q => p.kind.isTypeBody = true → q.kind.isTypeBody = false) :
    Ensures s.typeDeclaration part.Within := by
  refine (ensures_typeParts_carries s.node.kind h hbody).bind fun parts hparts => ?_
  have hheader : ∀ {head : Doc}, part.Within head ∨ part.Among parts.clauses →
      part.Within (if parts.clauses.isEmpty then head
        else grouped [head, indented (parts.clauses.map fun clause => cat [space, clause])]) := by
    intro head hin
    split
    · rename_i hempty
      rw [List.isEmpty_iff.mp hempty] at hin
      exact hin.resolve_right fun ⟨_, hmem, _⟩ => by cases hmem
    · rcases hin with hhead | hclauses
      · exact (hhead.head _).grouped
      · have hspaced : part.Among (parts.clauses.map fun clause => cat [space, clause]) :=
          hclauses.map fun hd => (hd.single.cons _).cat
        exact ((Within.single hspaced.indented).cons head).grouped
  rcases hparts with hmodifiers | hhead | hclauses | ⟨body, hmem, hwithin⟩
  · exact (ensures_true _).bind fun head _ => .pure (hmodifiers.append_left _).cat
  · exact (within_sequence s.node.kind .ofTypeHead hhead).bind fun head hd =>
      .pure ((Within.head (hheader (.inl hd)) _).append_right _).cat
  · exact (ensures_true _).bind fun head _ =>
      .pure ((Within.head (hheader (.inr hclauses)) _).append_right _).cat
  · refine (ensures_true _).bind fun head _ => .pure ?_
    rw [Option.mem_def.mp hmem]
    exact (((hwithin.single.cons _).cons _).append_right _).cat

/-- The constants of an enumeration are printed, and so is the one before them. -/
theorem among_enumConstants (source : Source) {current : Option Doc}
    (h : (∃ d ∈ current, part.Within d) ∨
      ∃ p ∈ ps, p.Carries part ∧ p.kind ≠ .enumBodyDeclarations) :
    Ensures (enumConstants source current ps) part.Among := by
  induction ps generalizing current with
  | nil =>
    obtain ⟨d, rfl, hd⟩ : ∃ d, current = some d ∧ part.Within d := by simpa using h
    exact .pure hd.single
  | cons p ps ih =>
    have hlater : p.kind = .enumBodyDeclarations ∨ p.isToken "," = true →
        ∀ c : Option Doc, ((∃ d ∈ current, part.Within d) → ∃ d ∈ c, part.Within d) →
          Ensures (enumConstants source c ps) part.Among := by
      intro hp c hc
      rcases h with hcurrent | ⟨q, hq, hcarries, hkind⟩
      · exact ih (.inl (hc hcurrent))
      · rcases List.mem_cons.mp hq with rfl | hq
        · rcases hp with hp | hp
          · exact absurd hp hkind
          · rw [hcarries.isToken_eq_false] at hp
            cases hp
        · exact ih (.inr ⟨q, hq, hcarries, hkind⟩)
    by_cases hkind : p.kind = .enumBodyDeclarations
    · rw [enumConstants_cons_of_declarations source current ps hkind]
      exact hlater (.inl hkind) current fun hcurrent => hcurrent
    rcases enumConstants_cons source current ps hkind with
      ⟨c, rfl, hcomma, heq⟩ | ⟨-, heq⟩
    all_goals rw [heq]
    · refine hlater (.inr hcomma) _ ?_
      rintro ⟨d, ⟨⟩, hd⟩
      exact ⟨_, rfl, (hd.head _).cat⟩
    · rcases h with ⟨d, hd, hwithin⟩ | ⟨q, hq, hcarries, hkind⟩
      · refine (ensures_true _).bind fun _ _ => (ensures_true _).bind fun ds _ => .pure ?_
        rw [Option.mem_def.mp hd]
        exact hwithin.single.append_left ds
      · rcases List.mem_cons.mp hq with rfl | hq
        · refine hcarries.doc.bind fun d hd => ?_
          refine (ih (.inl ⟨_, rfl, ?_⟩)).bind fun ds hds => .pure (hds.append_right _)
          split
          · exact (hd.single.cons _).cat
          · exact hd
        · exact (ensures_true _).bind fun d _ =>
            (ih (.inr ⟨q, hq, hcarries, hkind⟩)).bind fun ds hds =>
              .pure (hds.append_right _)

/-! ## Modifiers -/

/-- A part that is carried is among the modifiers and comments. -/
theorem among_modifierParts (owner : Option NodeKind) (pending : List AttachedComment)
    (h : Carried part ps) : Ensures (modifierParts owner pending ps) part.Among := by
  induction ps generalizing pending with
  | nil => exact absurd h not_carried_nil
  | cons p ps ih =>
    unfold modifierParts
    rcases carried_cons_iff.mp h with hp | hps
    · exact hp.doc.bind fun d hd => (ensures_true _).bind fun ds _ =>
        .pure (((hd.head _).append_left _).append_left _)
    · exact (ensures_true _).bind fun d _ =>
        (ih _ hps).bind fun ds hds => .pure (hds.append_right _)

/-- A part that is carried is within the list of modifiers. -/
theorem within_modifiers (h : Carried part s.children) : Ensures s.modifiers part.Within :=
  (among_modifierParts s.parent s.comments.dangling h).bind fun _ hds => .pure hds.cat

/-! ## Operators -/

/-- A part that is within the left side is within the assignment. -/
theorem within_assignment_left {left : Doc} (h : part.Within left) (operator : String)
    (right : Piece) : Ensures (assignment left operator right) part.Within := by
  refine (ensures_true _).bind fun d _ => ?_
  split
  · exact .pure (h.head _).grouped
  · exact .pure (h.head _).cat

/-- A part that the right side carries is within the assignment. -/
theorem within_assignment_right (left : Doc) (operator : String) (h : p.Carries part) :
    Ensures (assignment left operator p) part.Within := by
  refine h.doc.bind fun d hd => ?_
  split
  · have hvalue : part.Within (indented [space, d]) := (hd.single.cons _).indented
    exact .pure (((hvalue.single.cons _).cons _).cons _).grouped
  · exact .pure ((((hd.single.cons _).cons _).cons _).cons _).cat

/-- The part is within the right operand of the link that a binary expression ends with. -/
theorem carries_operatorLink (comments : NodeComments) {left operator : Piece}
    (h : p.Carries part) : (operatorLink comments [left, operator, p]).Carries part :=
  h.doc.bind fun _ hd => .pure hd

/-- The part is within one of the operands of a chain. -/
theorem ensures_operatorChain_carries (comments : NodeComments) {left operator right : Piece}
    (h : left.Carries part ∨ right.Carries part) :
    Ensures (operatorChain comments [left, operator, right]) (OperatorChain.Carries part) := by
  have hlink : ∀ inner, right.Carries part →
      ∃ l ∈ inner ++ [operatorLink comments [left, operator, right]], l.Carries part :=
    fun inner hright =>
      ⟨_, List.mem_append_right inner List.mem_cons_self, carries_operatorLink comments hright⟩
  unfold operatorChain
  dsimp only
  split
  · rename_i level hlevel
    have halone : OperatorChain.Carries part
        ⟨level, left.doc, [], operatorLink comments [left, operator, right]⟩ := by
      rcases h with hleft | hright
      · exact .inl hleft.doc
      · exact .inr (hlink [] hright)
    unfold extendChain
    split
    · exact .pure halone
    · rename_i found hfound
      rcases h with hleft | hright
      · refine (hleft.operators found hfound).bind fun chain hchain => ?_
        split
        · refine .pure (hchain.imp_right ?_)
          rintro ⟨l, hl, hcarries⟩
          exact ⟨l, List.mem_append_left _ hl, hcarries⟩
        · exact .pure (.inl hleft.doc)
      · refine (ensures_true _).bind fun chain _ => ?_
        split
        · exact .pure (.inr (hlink _ hright))
        · exact .pure halone
  · exact .throw _

/-- A part that a link of operators carries is within its operation. -/
theorem OperatorLink.Carries.operation {l : OperatorLink} (h : l.Carries part) :
    Ensures l.doc part.Within := by
  refine h.bind ?_
  rintro ⟨operator, operand⟩ hd
  have hwrapped : part.Within (cat [operand, l.trailing]) := (Within.head hd _).cat
  exact .pure (((hwrapped.single.cons _).cons _).cons _).cat

/-- The part is within a chain of operators of which it is within an operand. In both cases the
chain is put together, with the part in one of its operands. -/
theorem within_binary {left operator right : Piece}
    (hchildren : s.children = [left, operator, right])
    (h : left.Carries part ∨ right.Carries part) : Ensures s.binary part.Within := by
  unfold Site.binary
  rw [hchildren]
  refine (ensures_operatorChain_carries s.comments h).bind fun chain hchain => ?_
  have hclose : ∀ {first : Doc} {rest : List Doc}, part.Among (first :: rest) →
      Ensures (if s.parent.any alignsChain && !s.roots.contains s.node.index then
        Pure.pure (cat (chain.inner.reverse.map OperatorLink.leading ++ [grouped (first :: rest)]))
      else Pure.pure (cat (chain.inner.reverse.map OperatorLink.leading ++
        [grouped [first, indented rest]]))) part.Within := by
    intro first rest hin
    split
    · exact .pure ((Within.single hin.grouped).append_right _).cat
    · rcases among_cons_iff.mp hin with hfirst | hrest
      · exact .pure ((Within.single (hfirst.head _).grouped).append_right _).cat
      · have hbroken := ((Within.single hrest.indented).cons first).grouped
        exact .pure (hbroken.single.append_right _).cat
  rcases hchain with hfirst | ⟨l, hl, hcarries⟩
  · refine hfirst.bind fun first hd => (ensures_true _).bind fun inner _ => ?_
    refine (ensures_true _).bind ?_
    rintro ⟨operator, operand⟩ -
    exact hclose (hd.head _)
  · refine (ensures_true _).bind fun first _ => ?_
    rcases List.mem_append.mp hl with hl | hl
    · refine (ensures_mapM_mem hl hcarries.operation).bind fun inner hinner => ?_
      refine (ensures_true _).bind ?_
      rintro ⟨operator, operand⟩ -
      exact hclose ((Among.append_left hinner _).cons first)
    · obtain rfl := List.mem_singleton.mp hl
      refine (ensures_true _).bind fun inner _ => hcarries.bind ?_
      rintro ⟨operator, operand⟩ hd
      have hlast : part.Within (operation operator operand) :=
        (((Within.single hd).cons _).cons _).cons _ |>.cat
      exact hclose ((hlast.single.append_right inner).cons first)

/-! ## Calls -/

/-- The part is within what is printed behind the receiver of a call. -/
theorem ensures_callParts_among (h : Carried part ps) :
    Ensures (callParts ps) fun parts => part.Among parts.2 := by
  induction ps with
  | nil => exact absurd h not_carried_nil
  | cons p ps ih =>
    unfold callParts
    rcases carried_cons_iff.mp h with hp | hps
    · split
      · exact hp.docWithoutLeading.bind fun d hd =>
          (ensures_true _).bind fun parts _ => .pure (hd.head _)
      · exact hp.doc.bind fun d hd => (ensures_true _).bind fun parts _ => .pure (hd.head _)
    · split
      · exact (ensures_true _).bind fun d _ =>
          (ih hps).bind fun parts hparts => .pure (Among.cons d hparts)
      · exact (ensures_true _).bind fun d _ =>
          (ih hps).bind fun parts hparts => .pure (Among.cons d hparts)

/-- The part is within the receiver of a chain or in one of its calls. -/
theorem carries_callChain (comments : NodeComments) (h : Carried part ps) {chain : CallChain}
    (hchain : callChain? comments ps = some chain) : chain.Carries part := by
  obtain ⟨receiver, dot, rest, rfl, -, hchain⟩ := exists_receiver hchain
  rcases carried_cons_iff.mp h with hreceiver | hbehind
  · rcases hchain with ⟨inner, hinner, rfl⟩ | rfl
    · refine (hreceiver.calls inner hinner).imp_right ?_
      rintro ⟨l, hl, hwithin⟩
      exact ⟨l, List.mem_append_left _ hl, hwithin⟩
    · exact .inl hreceiver.doc
  · have hlink : Ensures (callLink comments (receiver :: dot :: rest)).doc part.Within := by
      have hparts := ensures_callParts_among hbehind
      exact Ensures.bind hparts fun parts hin => .pure (Among.append_right _ hin).cat
    rcases hchain with ⟨inner, -, rfl⟩ | rfl
    · exact .inr ⟨_, by simp, hlink⟩
    · exact .inr ⟨_, by simp, hlink⟩

/-- A receiver and its calls hold what the receiver or a call holds. -/
theorem within_brokenCalls (headKind : NodeKind) {head : Doc} {links : List Doc}
    (h : part.Among (head :: links)) : part.Within (brokenCalls headKind head links) := by
  have hbroken : part.Among (links.drop (if keepsFirstCall headKind then 1 else 0)) →
      part.Within (indented ((links.drop (if keepsFirstCall headKind then 1 else 0)).map
        fun link => cat [softline, link])) :=
    fun hin => (hin.map fun hd => (hd.single.cons _).cat).indented
  unfold brokenCalls
  dsimp only
  split
  · rename_i hkept
    rw [if_pos hkept] at hbroken
    rcases among_cons_iff.mp h with hhead | hlinks
    · exact (Within.head (hhead.head _).cat _).grouped
    · rw [← List.take_append_drop 1 links] at hlinks
      obtain ⟨d, hd, hwithin⟩ := hlinks
      rcases List.mem_append.mp hd with hd | hd
      · have hfirst : part.Among (links.take 1) := ⟨d, hd, hwithin⟩
        exact (Within.head (hfirst.cons head).cat _).grouped
      · exact ((hbroken ⟨d, hd, hwithin⟩).single.cons _).grouped
  · rename_i hkept
    rw [if_neg hkept] at hbroken
    rcases among_cons_iff.mp h with hhead | hlinks
    · exact (hhead.head _).grouped
    · exact ((hbroken hlinks).single.cons _).grouped

/-- A part that a chain of calls carries is within its document. -/
theorem CallChain.Carries.doc {c : CallChain} (h : c.Carries part) :
    Ensures c.doc part.Within := by
  have hclose : ∀ {head last : Doc} {inner : List Doc}, part.Among (head :: (inner ++ [last])) →
      part.Within (cat (c.inner.reverse.map CallLink.leading ++
        [brokenCalls c.headKind head (inner ++ [last])])) :=
    fun hin => ((Within.single (within_brokenCalls c.headKind hin)).append_right _).cat
  rcases h with hhead | ⟨l, hl, hwithin⟩
  · exact (ensures_true _).bind fun inner _ => (ensures_true _).bind fun last _ =>
      hhead.bind fun head hd => .pure (hclose (hd.head _))
  · rcases List.mem_append.mp hl with hl | hl
    · have hwrapped : Ensures l.wrapped part.Within :=
        hwithin.bind fun d hd => .pure (hd.head _).cat
      refine (ensures_mapM_mem hl hwrapped).bind fun inner hinner => ?_
      exact (ensures_true _).bind fun last _ => (ensures_true _).bind fun head _ =>
        .pure (hclose ((Among.append_left hinner _).cons head))
    · obtain rfl := List.mem_singleton.mp hl
      exact (ensures_true _).bind fun inner _ => hwithin.bind fun last hd =>
        (ensures_true _).bind fun head _ =>
          .pure (hclose ((hd.single.append_right inner).cons head))

/-- A part that is carried is within the invocation of a method. -/
theorem within_methodInvocation (h : Carried part s.children) :
    Ensures s.methodInvocation part.Within := by
  unfold Site.methodInvocation
  split
  · rename_i chain hchain
    split
    · exact within_tight h
    · exact (carries_callChain s.comments h hchain).doc
  · exact within_tight h

/-! ## Control flow -/

/-- A part that the body carries is within the statement with its header. -/
theorem within_headedBody (header : List Piece) (h : p.Carries part) :
    Ensures (headedBody header p) part.Within := by
  unfold headedBody
  split
  · split
    · exact .throw _
    · exact h.doc.bind fun d hd => .pure (hd.single.cons _).cat
  · rw [if_neg (by simp [h.isToken_eq_false])]
    refine h.doc.bind fun d hd => ?_
    split
    · exact .pure (hd.single.cons _).indented
    · exact .pure (Within.single (hd.single.cons _).indented).grouped

/-- A part that an alternative carries is among what is printed of it. -/
theorem among_alternativeParts (keyword : Piece) (h : p.Carries part) :
    Ensures (alternativeParts keyword p) part.Among := by
  unfold alternativeParts
  split
  · exact h.doc.bind fun d hd => .pure (hd.single.cons _)
  · exact (within_headedBody [keyword] h).bind fun d hd => .pure hd.single

/-- A part that is carried is among the alternative of a statement. -/
theorem among_elseParts (consequence : Piece) (hshort : ps.length ≤ 2) (h : Carried part ps) :
    Ensures (elseParts consequence ps) part.Among := by
  unfold elseParts
  split
  · exact absurd h not_carried_nil
  · exact .throw _
  · rename_i keyword alternative more
    obtain rfl : more = [] := by
      rw [← List.length_eq_zero_iff]
      simp only [List.length_cons] at hshort
      omega
    rcases carried_cons_iff.mp h with hkeyword | h
    · exact hkeyword.doc.bind fun d hd => (ensures_true _).bind fun ds _ =>
        .pure ((hd.head _).cons _)
    · have halternative := (carried_cons_iff.mp h).resolve_right not_carried_nil
      exact (ensures_true _).bind fun d _ =>
        (among_alternativeParts keyword halternative).bind fun ds hds =>
          .pure ((hds.cons _).cons _)

/-- A part that is carried is within the conditional statement. -/
theorem within_ifStatement {keyword condition consequence : Piece} {more : List Piece}
    (hchildren : s.children = keyword :: condition :: consequence :: more)
    (hmore : more.length ≤ 2) (h : Carried part s.children) :
    Ensures s.ifStatement part.Within := by
  unfold Site.ifStatement
  rw [hchildren] at h ⊢
  rcases carried_cons_iff.mp h with hkeyword | h
  · exact hkeyword.doc.bind fun first hd => (ensures_true _).bind fun test _ =>
      (ensures_true _).bind fun body _ => (ensures_true _).bind fun rest _ =>
        .pure (Within.head hd _).cat
  rcases carried_cons_iff.mp h with hcondition | h
  · exact (ensures_true _).bind fun first _ => hcondition.doc.bind fun test hd =>
      (ensures_true _).bind fun body _ => (ensures_true _).bind fun rest _ =>
        .pure (((Within.head hd _).cons _).cons _).cat
  rcases carried_cons_iff.mp h with hconsequence | h
  · exact (ensures_true _).bind fun first _ => (ensures_true _).bind fun test _ =>
      (within_headedBody _ hconsequence).bind fun body hd => (ensures_true _).bind fun rest _ =>
        .pure ((((Within.head hd _).cons _).cons _).cons _).cat
  · exact (ensures_true _).bind fun first _ => (ensures_true _).bind fun test _ =>
      (ensures_true _).bind fun body _ =>
        (among_elseParts consequence hmore h).bind fun rest hrest =>
          .pure (hrest.append_right _).cat

/-- A part that is carried is within the loop. -/
theorem within_loop (h : Carried part s.children) : Ensures s.loop part.Within := by
  unfold Site.loop
  split
  · exact .throw _
  · rename_i body hbody
    obtain ⟨p, hp, hcarries⟩ := h
    obtain ⟨header, hheader⟩ := List.getLast?_eq_some_iff.mp hbody
    rw [hheader] at hp ⊢
    rw [List.dropLast_concat]
    rcases List.mem_append.mp hp with hp | hp
    · have hsequence : Ensures _ part.Within :=
        within_sequence s.node.kind .standard ⟨p, hp, hcarries⟩
      exact hsequence.bind fun head hd => (ensures_true _).bind fun d _ => .pure (hd.head _).cat
    · obtain rfl := List.mem_singleton.mp hp
      exact (ensures_true _).bind fun head _ =>
        (within_headedBody header hcarries).bind fun d hd => .pure (hd.single.cons _).cat

/-- A part that is carried is within the loop with its condition at the end. -/
theorem within_doLoop (h : Carried part s.children) : Ensures s.doLoop part.Within := by
  unfold Site.doLoop
  split
  · rename_i keyword body tail hlist
    rw [hlist] at h
    rcases carried_cons_iff.mp h with hkeyword | h
    · exact hkeyword.doc.bind fun first hd => (ensures_true _).bind fun statement _ =>
        (ensures_true _).bind fun rest _ => .pure (hd.head _).cat
    rcases carried_cons_iff.mp h with hbody | htail
    · exact (ensures_true _).bind fun first _ => (within_headedBody [keyword] hbody).bind
        fun statement hd => (ensures_true _).bind fun rest _ => .pure ((hd.head _).cons _).cat
    · exact (ensures_true _).bind fun first _ => (ensures_true _).bind fun statement _ =>
        (within_sequence s.node.kind .standard htail).bind fun rest hd =>
          .pure (((hd.single.cons _).cons _).cons _).cat
  · exact .throw _

/-- The part is within one of the labels of a group or one of its statements. -/
theorem ensures_switchLabels_carries {labels : List Doc} (lastLabel : Option Piece)
    (h : part.Among labels ∨ Carried part ps) :
    Ensures (switchLabels labels lastLabel ps) fun g =>
      part.Among g.labels ∨ Carried part g.statements := by
  induction ps generalizing labels lastLabel with
  | nil =>
    unfold switchLabels
    exact .pure (h.imp_right fun hnone => absurd hnone not_carried_nil)
  | cons p ps ih =>
    rcases switchLabels_cons labels lastLabel p ps with
      ⟨label, before, rfl, hcolon, heq⟩ | ⟨-, ⟨-, heq⟩ | ⟨-, heq⟩⟩
    all_goals rw [heq]
    · refine ih lastLabel ?_
      rcases h with hlabels | h
      · left
        rcases among_cons_iff.mp hlabels with hd | hbefore
        · exact Within.head (hd.head _).cat _
        · exact hbefore.cons _
      · right
        rcases carried_cons_iff.mp h with hp | hps
        · rw [hp.isToken_eq_false] at hcolon
          cases hcolon
        · exact hps
    · rcases h with hlabels | h
      · exact (ensures_true _).bind fun d _ => ih (some p) (.inl (hlabels.cons d))
      · rcases carried_cons_iff.mp h with hp | hps
        · exact hp.doc.bind fun d hd => ih (some p) (.inl (hd.head _))
        · exact (ensures_true _).bind fun d _ => ih (some p) (.inr hps)
    · exact .pure h

/-- A part that is carried is within the group of a switch. -/
theorem within_switchGroup (h : Carried part s.children) : Ensures s.switchGroup part.Within := by
  unfold Site.switchGroup
  refine (ensures_switchLabels_carries none (.inr h)).bind fun g hg => ?_
  have hhead : part.Among g.labels → part.Within (join hardline g.labels.reverse) :=
    fun hlabels => Among.join _ (hlabels.mono fun _ hd => List.mem_reverse.mpr hd)
  have hbelow : ∀ d, part.Among g.labels ∨ part.Within d →
      part.Within (cat [join hardline g.labels.reverse, indented [hardline, d]]) := by
    rintro d (hlabels | hd)
    · exact (Within.head (hhead hlabels) _).cat
    · exact (Among.cons _ (Within.single (hd.single.cons _).indented)).cat
  have hmembers : Ensures (members s.source Gap.none g.statements) fun d =>
      part.Among g.labels ∨ part.Within d := by
    rcases hg with hlabels | hstatements
    · exact (ensures_true _).mono fun _ _ => .inl hlabels
    · exact (within_members s.source Gap.none hstatements).mono fun _ hd => .inr hd
  dsimp only
  split
  · rename_i hnone
    rw [hnone] at hg
    exact .pure (hhead (hg.resolve_right not_carried_nil))
  · rename_i statement hone
    rw [hone] at hg hmembers
    split
    · rcases hg with hlabels | hstatement
      · exact (ensures_true _).bind fun d _ => .pure (Within.head (hhead hlabels) _).cat
      · have hcarries := (carried_cons_iff.mp hstatement).resolve_right not_carried_nil
        exact hcarries.doc.bind fun d hd => .pure ((hd.single.cons _).cons _).cat
    · exact hmembers.bind fun d hd => .pure (hbelow d hd)
  · exact hmembers.bind fun d hd => .pure (hbelow d hd)

/-! ## Children that the grammar puts in their places -/

section Places

variable (hnodes : s.children.map Piece.node = s.node.children) (h : Carried part s.children)

include hnodes h

/-- What is declared behind the constants of an enumeration is the only one of its kind. -/
theorem within_enumBody (hs : Shape.EnumBraced s.node.children) :
    Ensures s.enumBody part.Within := by
  obtain ⟨ps, qs, hps, hconstant, hdeclared, -⟩ := Site.exists_enumBraced hnodes hs
  have hunbraced := h.unbraced
  rw [hps] at hunbraced
  obtain ⟨p, hp, hcarries⟩ := hunbraced
  unfold Site.enumBody
  rw [hps]
  rcases List.mem_append.mp hp with hconst | hdecl
  · refine (among_enumConstants s.source
      (.inr ⟨p, hp, hcarries, hconstant p hconst⟩)).bind fun ds hds => ?_
    split
    · exact (ensures_true _).bind fun d _ =>
        .pure (within_braces s.comments (Within.head (hds.join _) _).cat)
    · cases ds with
      | nil =>
        obtain ⟨_, hmem, -⟩ := hds
        cases hmem
      | cons d ds => exact .pure (within_braces s.comments (hds.join _))
  · rcases hdeclared with rfl | ⟨q, rfl, hkind⟩
    · cases hdecl
    · obtain rfl := List.mem_singleton.mp hdecl
      have hfound : (ps ++ [p]).reverse.find? (·.kind == .enumBodyDeclarations) = some p := by
        simp [hkind]
      rw [hfound]
      exact (ensures_true _).bind fun ds _ => hcarries.doc.bind fun d hd =>
        .pure (within_braces s.comments (hd.single.cons _).cat)

/-- The body of a type is the last of its children. -/
theorem within_typeDeclared (hs : Shape.TypeDeclared s.node.children) :
    Ensures s.typeDeclaration part.Within := by
  refine within_typeDeclaration h ?_
  obtain ⟨ms, hs, ks, body, hps, hmodifiers, hhead, hclauses, -⟩ :=
    Site.exists_typeDeclared hnodes hs
  have hplain : ∀ p ∈ ms ++ (hs ++ ks), p.kind.isTypeBody = false := by
    simp only [List.forall_mem_append]
    refine ⟨?_, fun p hp => (hhead p hp).2.2, fun p hp => ?_⟩
    · rcases hmodifiers with rfl | ⟨m, rfl, hkind⟩
      · simp
      · simp [hkind, NodeKind.isTypeBody]
    · cases hbody : p.kind.isTypeBody with
      | false => rfl
      | true =>
        have hclause := (sort_of_isTypeBody hbody).2
        rw [hclauses p hp] at hclause
        cases hclause
  have hall : s.children = (ms ++ (hs ++ ks)) ++ [body] := by simp [hps]
  rw [hall, List.pairwise_append]
  refine ⟨List.pairwise_of_forall_mem_list fun p hp _ _ htype => ?_, List.pairwise_singleton _ _,
    fun p hp q _ htype => ?_⟩
  all_goals
    rw [hplain p hp] at htype
    cases htype

/-- The rule for a declarator prints what its children carry. -/
theorem within_variableDeclarator (hs : Shape.Declarator s.node.children) :
    Ensures s.variableDeclarator part.Within := by
  obtain ⟨left, right, hps, htake, hdrop, hright⟩ := Site.exists_declarator hnodes hs
  rw [Site.variableDeclarator, htake, hdrop]
  rw [hps] at h
  rcases hright with rfl | ⟨sign, value, rfl, hsign⟩
  · rw [List.append_nil] at h
    exact (among_docs h).bind fun ds hds => .pure hds.cat
  · obtain ⟨r, hr, hcarries⟩ := h
    rcases List.mem_append.mp hr with hr | hr
    · exact (among_docs ⟨r, hr, hcarries⟩).bind fun ds hds =>
        within_assignment_left hds.cat "=" value
    · rcases List.mem_cons.mp hr with rfl | hr
      · rw [hcarries.isToken_eq_false] at hsign
        cases hsign
      · obtain rfl := List.mem_singleton.mp hr
        exact (ensures_true _).bind fun ds _ => within_assignment_right _ "=" hcarries

/-- What follows the constants of an enumeration begins with a semicolon. -/
theorem within_declarations (hs : Shape.Allowed .enumBodyDeclarations s.node.children) :
    Ensures s.enumDeclarations part.Within := by
  obtain ⟨semicolon, items, hc, hsemicolon⟩ := hs
  rw [← hnodes] at hc
  obtain ⟨p, ps, hps, rfl, rfl⟩ := List.map_eq_cons_iff.mp hc
  refine within_enumDeclarations ?_
  rw [hps] at h ⊢
  refine (carried_cons_iff.mp h).resolve_left fun hp => ?_
  have htoken : p.isToken ";" = true := hsemicolon
  rw [hp.isToken_eq_false] at htoken
  cases htoken

/-- A child that is a token does not carry the part. -/
theorem exists_operands (hs : ∃ left operator right, s.node.children = [left, operator, right] ∧
      operator.kind = .token) :
    ∃ left operator right, s.children = [left, operator, right] ∧
      (left.Carries part ∨ right.Carries part) := by
  obtain ⟨left, operator, right, hc, hoperator⟩ := hs
  obtain ⟨l, o, r, hps, rfl, rfl, rfl⟩ := Site.exists_triple hnodes hc
  refine ⟨l, o, r, hps, ?_⟩
  rw [hps] at h
  refine (carried_cons_iff.mp h).imp_right fun h => ?_
  rcases carried_cons_iff.mp h with ho | hr
  · have hnamed := ho.named
    simp [Tree.isNamed, hoperator] at hnamed
  · exact (carried_cons_iff.mp hr).resolve_right not_carried_nil

/-- The rule for an assignment prints what its children carry. -/
theorem within_assignment (hs : Shape.Allowed .assignmentExpression s.node.children) :
    Ensures s.assignment part.Within := by
  obtain ⟨left, operator, right, hc, hoperator, -⟩ := hs
  obtain ⟨l, o, r, hps, hcarries⟩ := exists_operands hnodes h ⟨left, operator, right, hc, hoperator⟩
  unfold Site.assignment
  rw [hps]
  rcases hcarries with hleft | hright
  · exact hleft.doc.bind fun d hd => within_assignment_left hd _ r
  · exact (ensures_true _).bind fun d _ => within_assignment_right d _ hright

/-- The rule for a binary expression prints what its children carry. -/
theorem within_binaryExpression (hs : Shape.Allowed .binaryExpression s.node.children) :
    Ensures s.binary part.Within := by
  obtain ⟨left, operator, right, hc, -, hoperator, -⟩ := hs
  obtain ⟨l, o, r, hps, hcarries⟩ := exists_operands hnodes h ⟨left, operator, right, hc, hoperator⟩
  exact within_binary hps hcarries

/-- The chain of operators of a binary expression carries what its children do. -/
theorem ensures_operators_carries (hs : Shape.Allowed .binaryExpression s.node.children) :
    Ensures (operatorChain s.comments s.children) (OperatorChain.Carries part) := by
  obtain ⟨left, operator, right, hc, -, hoperator, -⟩ := hs
  obtain ⟨l, o, r, hps, hcarries⟩ := exists_operands hnodes h ⟨left, operator, right, hc, hoperator⟩
  rw [hps]
  exact ensures_operatorChain_carries s.comments hcarries

/-- The rule for a unary expression prints what its children carry. -/
theorem within_unary (hs : Shape.Allowed .unaryExpression s.node.children) :
    Ensures s.unary part.Within := by
  obtain ⟨operator, operand, hc, hoperator⟩ := hs
  obtain ⟨o, p, hps, rfl, rfl⟩ := Site.exists_pair hnodes hc
  unfold Site.unary
  rw [hps] at h ⊢
  rcases carried_cons_iff.mp h with ho | h
  · have hnamed := ho.named
    simp [Tree.isNamed, hoperator] at hnamed
  · have hp := (carried_cons_iff.mp h).resolve_right not_carried_nil
    exact hp.doc.bind fun d hd => .pure ((hd.single.cons _).cons _).cat

/-- The rule for a conditional expression prints what its children carry. -/
theorem within_ternary (hs : Shape.Allowed .ternaryExpression s.node.children) :
    Ensures s.ternary part.Within := by
  obtain ⟨c, m, d, k, a, hps, hmark, hcolon⟩ := Site.exists_ternary hnodes hs
  have htoken : ∀ {q : Piece} {text : String}, q.node.isToken text = true → ¬q.Carries part := by
    intro q text htoken hq
    have hnone : q.node.isToken text = false := hq.isToken_eq_false text
    rw [htoken] at hnone
    cases hnone
  unfold Site.ternary
  rw [hps] at h ⊢
  rcases carried_cons_iff.mp h with hcondition | h
  · exact hcondition.doc.bind fun x hx => (ensures_true _).bind fun y _ =>
      (ensures_true _).bind fun z _ => .pure (Within.head hx _).grouped
  have h := (carried_cons_iff.mp h).resolve_left (htoken hmark)
  rcases carried_cons_iff.mp h with hconsequence | h
  · exact (ensures_true _).bind fun x _ => hconsequence.doc.bind fun y hy =>
      (ensures_true _).bind fun z _ =>
        .pure ((Within.single (((Within.head hy _).cons _).cons _).indented).cons x).grouped
  have h := (carried_cons_iff.mp h).resolve_left (htoken hcolon)
  have halternative := (carried_cons_iff.mp h).resolve_right not_carried_nil
  refine (ensures_true _).bind fun x _ => (ensures_true _).bind fun y _ =>
    halternative.doc.bind fun z hz => .pure ?_
  have hbranches : part.Within (indented [space, .text "? ", y, space, .text ": ", z]) :=
    (((((hz.single.cons _).cons _).cons _).cons _).cons _).indented
  exact (hbranches.single.cons x).grouped

/-- The rule for a conditional statement prints what its children carry. -/
theorem within_conditional (hs : Shape.Allowed .ifStatement s.node.children) :
    Ensures s.ifStatement part.Within := by
  obtain ⟨k, c, b, more, hps, hmore⟩ := Site.exists_conditional hnodes hs
  have hlength : more.length ≤ 2 := by
    rcases hmore with rfl | ⟨further, alternative, rfl⟩
    · exact Nat.zero_le _
    · exact le_rfl
  exact within_ifStatement hps hlength h

/-- The rule for the kind of a node prints what its children carry. The kinds without a rule of
their own are printed child by child, but for leaves. -/
theorem within_bare (ha : Shape.Allowed s.node.kind s.node.children) (ht : s.node.kind ≠ .token)
    (hv : s.node.kind.isVerbatim = false) : Ensures s.bare part.Within := by
  have hsequence : ∀ spacing, Ensures (s.sequence spacing) part.Within :=
    fun spacing => within_sequence s.node.kind spacing h
  have htight := within_tight h
  unfold Site.bare
  cases hk : s.node.kind <;> rw [hk] at ha ht hv
  case program => exact within_program h
  case dimensions => exact within_dimensions h
  case classDeclaration | interfaceDeclaration | enumDeclaration | recordDeclaration |
      annotationTypeDeclaration => exact within_typeDeclared hnodes h ha
  case classBody | interfaceBody | annotationTypeBody => exact within_body _ h.unbraced
  case block | constructorBody | switchBlock | moduleBody => exact within_body _ h.unbraced
  case enumBody => exact within_enumBody hnodes h ha
  case enumBodyDeclarations => exact within_declarations hnodes h ha
  case modifiers => exact within_modifiers h
  case variableDeclarator => exact within_variableDeclarator hnodes h ha
  case formalParameters | annotationArgumentList | recordPatternBody | typeParameters |
      elementValueArrayInitializer | resourceSpecification => exact within_delimited _ h.named
  case arrayInitializer => exact within_delimited _ h.named
  case typeArguments => exact within_typeArguments h.named
  case argumentList => exact within_arguments h.named
  case methodInvocation => exact within_methodInvocation h
  case assignmentExpression => exact within_assignment hnodes h ha
  case binaryExpression => exact within_binaryExpression hnodes h ha
  case ternaryExpression => exact within_ternary hnodes h ha
  case unaryExpression => exact within_unary hnodes h ha
  case parenthesizedExpression => exact within_parenthesized h.named
  case ifStatement => exact within_conditional hnodes h ha
  case whileStatement | forStatement | enhancedForStatement => exact within_loop h
  case doStatement => exact within_doLoop h
  case switchBlockStatementGroup => exact within_switchGroup h
  all_goals
    first
    | exact hsequence _
    | exact htight
    | exact absurd rfl ht
    | exact absurd hv (by decide)

end Places

end JavaFormat.Layout
