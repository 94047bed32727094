import JavaFormat.Proofs.Layout.Outline
import Mathlib.Data.List.Forall2

/-!
# Layout looks at a few lines only

Four places of the layout look at positions: blank lines are kept between members and
between constants, annotations keep a line of their own, and a comment inside a list of
modifiers is printed behind the modifier that it follows. `LineFlags` is what they see. In
two sources with the same outlines they come to the same if they see the same.
-/

namespace JavaFormat.Layout

/-! ## What the layout sees of positions -/

/-- Whether a modifier is an annotation and what follows it begins on a later line. -/
def annotationEndsLine (item following : Tree) : Bool :=
  item.kind.isAnnotationUse && decide (item.span.stop.line < following.span.start.line)

/-- Whether a node is a list of modifiers, its last modifier is an annotation and what follows
the list begins on a later line. -/
def listEndsLine (t following : Tree) : Bool :=
  t.kind == .modifiers && t.children.getLast?.any (annotationEndsLine · following)

/-- What is said of every two neighbours. -/
def neighbours {α : Type} (f : α → α → Bool) : List α → List Bool
  | x :: y :: rest => f x y :: neighbours f (y :: rest)
  | _ => []

/-- For every modifier, whether a comment lies before it and whether behind it. -/
def remarkSides (items : List Tree) (a : AttachedComment) : List (Bool × Bool) :=
  items.map fun t => (decide (a.comment.span.stop.offset ≤ t.span.start.offset),
    decide (t.span.stop.offset ≤ a.comment.span.start.offset))

/-- What the layout sees of the positions at a node. -/
structure LineFlags where
  /-- Whether there is a blank line above the node, or above the first comment in front of
  it. -/
  blankLine : Bool
  /-- Of a list of modifiers: whether the annotations end their lines. -/
  annotations : List Bool
  /-- Of any node: whether the lists of modifiers directly below it end their lines. -/
  lists : List Bool
  /-- Of a list of modifiers: the modifiers that the comments inside lie before and behind. -/
  remarks : List (List (Bool × Bool))
deriving DecidableEq, Repr

/-- What the layout of a scene sees of the positions at a node. -/
def Scene.lineFlags (scene : Scene) (t : Tree) : LineFlags where
  blankLine := hasBlankLineBefore scene.source (layOut scene none t)
  annotations := if t.kind = .modifiers then neighbours annotationEndsLine t.children else []
  lists := neighbours listEndsLine t.children
  remarks := if t.kind = .modifiers then
    (scene.attachments.at t.index).dangling.map (remarkSides t.children) else []

/-! ## Members -/

/-- Options that are mapped to the same option have the same in them, if anything. -/
theorem rel_of_map_eq {α β : Type} {f : α → β} {o o' : Option α} (h : o.map f = o'.map f) :
    Option.Rel (fun a a' => f a = f a') o o' := by
  cases o with
  | none =>
    rw [Option.map_eq_none_iff.mp h.symm]
    exact .none
  | some a =>
    obtain ⟨a', rfl, ha⟩ := Option.map_eq_some_iff.mp h.symm
    exact .some ha.symm

/-- Lists of elements that are mapped to the same, one by one, are mapped to the same. -/
theorem map_eq_of_forall₂ {α β : Type} {R : α → α → Prop} {f : α → β} {xs xs' : List α}
    (h : List.Forall₂ R xs xs') (hf : ∀ a a', R a a' → f a = f a') : xs.map f = xs'.map f := by
  induction h with
  | nil => rfl
  | cons h _ ih => rw [List.map_cons, List.map_cons, hf _ _ h, ih]

/-- Pieces that are the same but for positions, in two sources that have a blank line above
both or above neither. -/
structure SameMember (source source' : Source) (p p' : Piece) : Prop where
  outline : p.outline = p'.outline
  blankLine : hasBlankLineBefore source p = hasBlankLineBefore source' p'

section Members

variable {source source' : Source} {ps ps' : List Piece} {gap : Gap}

/-- The same members are the same but for positions. -/
theorem map_outline_of_sameMember (h : List.Forall₂ (SameMember source source') ps ps') :
    ps.map Piece.outline = ps'.map Piece.outline :=
  map_eq_of_forall₂ h fun _ _ h => h.outline

/-- The documents of pieces that are the same but for positions. -/
theorem doc_eq_of_outline {p p' : Piece} (h : p.outline = p'.outline) : p.doc = p'.doc := by
  rw [← p.doc_outline, h, p'.doc_outline]

/-- Pieces that are the same but for positions have the same kind. -/
theorem kind_eq_of_outline {p p' : Piece} (h : p.outline = p'.outline) : p.kind = p'.kind := by
  rw [← p.kind_outline, h, p'.kind_outline]

/-- Pieces that are the same but for positions are the same tokens. -/
theorem isToken_eq_of_outline {p p' : Piece} (h : p.outline = p'.outline) (text : String) :
    p.isToken text = p'.isToken text := by
  rw [← p.isToken_outline, h, p'.isToken_outline]

/-- Pieces that are the same but for positions have nodes that are. -/
theorem node_eq_of_outline {p p' : Piece} (h : p.outline = p'.outline) :
    p.node.outline = p'.node.outline :=
  congrArg Piece.node h

/-- Whether two members are forced apart does not depend on positions. -/
def Gap.Placeless (gap : Gap) : Prop := ∀ t u, gap t.outline u.outline = gap t u

/-- No gap depends on no position. -/
theorem Gap.placeless_none : Gap.none.Placeless := fun _ _ => rfl

/-- The gap between members depends on no position. -/
theorem Gap.placeless_ofMembers : Gap.ofMembers.Placeless := fun t u => by simp [ofMembers]

/-- The gap between the parts of a compilation unit depends on no position. -/
theorem Gap.placeless_ofProgram : Gap.ofProgram.Placeless := fun t u => by simp [ofProgram]

/-- The same members behind another one are printed alike. -/
theorem membersAfter_eq (hgap : gap.Placeless)
    (h : List.Forall₂ (SameMember source source') ps ps') {previous previous' : Tree}
    (hprevious : previous.outline = previous'.outline) :
    membersAfter source gap previous ps = membersAfter source' gap previous' ps' := by
  induction h generalizing previous previous' with
  | nil => rfl
  | @cons p p' ps ps' hp hps ih =>
    have hapart : gap previous p.node = gap previous' p'.node := by
      rw [← hgap, hprevious, node_eq_of_outline hp.outline, hgap]
    rw [membersAfter, membersAfter, doc_eq_of_outline hp.outline,
      isToken_eq_of_outline hp.outline, hp.blankLine, hapart, ih hprevious,
      ih (node_eq_of_outline hp.outline)]

/-- The same members are printed alike. -/
theorem members_eq (hgap : gap.Placeless)
    (h : List.Forall₂ (SameMember source source') ps ps') :
    members source gap ps = members source' gap ps' := by
  cases h with
  | nil => rfl
  | cons hp hps =>
    rw [members, members, doc_eq_of_outline hp.outline,
      membersAfter_eq hgap hps (node_eq_of_outline hp.outline)]

/-- The same members, if there are any, are printed alike. -/
theorem members?_eq (hgap : gap.Placeless)
    (h : List.Forall₂ (SameMember source source') ps ps') :
    members? source gap ps = members? source' gap ps' := by
  have hempty : ps.isEmpty = ps'.isEmpty := by cases h <;> rfl
  rw [members?, members?, hempty, members_eq hgap h]

/-- The same constants of an enum are printed alike. -/
theorem enumConstants_eq (h : List.Forall₂ (SameMember source source') ps ps')
    (current : Option Doc) :
    enumConstants source current ps = enumConstants source' current ps' := by
  induction h generalizing current with
  | nil => rfl
  | cons hp hps ih =>
    simp only [enumConstants, kind_eq_of_outline hp.outline, isToken_eq_of_outline hp.outline,
      doc_eq_of_outline hp.outline, hp.blankLine, ih]

end Members

/-! ## Lines -/

/-- Pieces that are the same but for positions, with the same behind every list of modifiers
that is not next to something tight. -/
inductive SameLine (owner : Option NodeKind) (spacing : Spacing) : List Piece → List Piece → Prop
  | nil : SameLine owner spacing [] []
  | single {p p'} (h : p.outline = p'.outline) : SameLine owner spacing [p] [p']
  | cons {p p' q q' ps ps'} (h : p.outline = p'.outline)
    (hgap : p.kind = .modifiers → spacing.tightBefore.contains (spacingKey q.node) = false →
      modifiersSeparator owner p.node p.comments (some q.node) =
        modifiersSeparator owner p'.node p'.comments (some q'.node))
    (hrest : SameLine owner spacing (q :: ps) (q' :: ps')) :
    SameLine owner spacing (p :: q :: ps) (p' :: q' :: ps')

section Line

variable {owner : Option NodeKind} {kind : NodeKind} {spacing : Spacing} {p p' q q' : Piece}
  {ps ps' : List Piece}

/-- Without modifiers there is nothing more to be the same. -/
theorem SameLine.of_outline (h : ps.map Piece.outline = ps'.map Piece.outline)
    (hnone : ∀ p ∈ ps, p.kind ≠ .modifiers) : SameLine owner spacing ps ps' := by
  induction ps generalizing ps' with
  | nil =>
    rw [List.map_eq_nil_iff.mp h.symm]
    exact .nil
  | cons p ps ih =>
    obtain ⟨p', ps', rfl, hp, hps⟩ := List.map_eq_cons_iff.mp h.symm
    obtain ⟨hne, hnone⟩ := List.forall_mem_cons.mp hnone
    have hrest := ih hps.symm hnone
    cases hrest with
    | nil => exact .single hp.symm
    | single hq => exact .cons hp.symm (fun hk => absurd hk hne) (.single hq)
    | cons hq hgap hrest => exact .cons hp.symm (fun hk => absurd hk hne) (.cons hq hgap hrest)

/-- Pieces on the same lines are so without the first one. -/
theorem SameLine.tail (h : SameLine owner spacing (p :: ps) (p' :: ps')) :
    SameLine owner spacing ps ps' := by
  cases h with
  | single => exact .nil
  | cons _ _ hrest => exact hrest

/-- Pieces on the same lines are so without the first ones. -/
theorem SameLine.drop (h : SameLine owner spacing ps ps') (n : Nat) :
    SameLine owner spacing (ps.drop n) (ps'.drop n) := by
  induction n generalizing ps ps' with
  | zero => exact h
  | succ n ih =>
    cases ps with
    | nil =>
      cases h
      exact .nil
    | cons p ps =>
      obtain ⟨p', ps', rfl⟩ : ∃ p' qs, ps' = p' :: qs := by cases h <;> exact ⟨_, _, rfl⟩
      exact ih h.tail

/-- Pieces on the same lines are so without the last one. -/
theorem SameLine.dropLast (h : SameLine owner spacing ps ps') :
    SameLine owner spacing ps.dropLast ps'.dropLast := by
  induction h with
  | nil => exact .nil
  | single => exact .nil
  | cons hp hgap hrest ih =>
    cases hrest with
    | single => exact .single hp
    | cons hq hgap' hrest => exact .cons hp hgap ih

/-- The same goes between two pieces. -/
theorem SameLine.separator_eq (h : SameLine owner spacing (p :: q :: ps) (p' :: q' :: ps')) :
    separator owner spacing (some q.node) p q = separator owner spacing (some q'.node) p' q' := by
  cases h with
  | cons hp hgap hrest =>
    have hq : q.outline = q'.outline := by cases hrest <;> assumption
    have hkeyp : spacingKey p.node = spacingKey p'.node := by
      rw [← spacingKey_outline, node_eq_of_outline hp, spacingKey_outline]
    have hkeyq : spacingKey q.node = spacingKey q'.node := by
      rw [← spacingKey_outline, node_eq_of_outline hq, spacingKey_outline]
    have hbreaking : p.hasBreakingTrailing = p'.hasBreakingTrailing := by
      rw [← p.hasBreakingTrailing_outline, hp, p'.hasBreakingTrailing_outline]
    rw [hkeyq] at hgap
    simp only [separator, hkeyp, hkeyq, hbreaking, ← kind_eq_of_outline hp]
    by_cases hk : p.kind = .modifiers
    · cases htight : spacing.tightBefore.contains (spacingKey q'.node) with
      | true => rfl
      | false => simp only [if_pos hk, hgap hk htight]
    · simp only [if_neg hk]

/-- A sequence of pieces on the same lines is printed alike. -/
theorem SameLine.sequenceAfter_eq (h : SameLine (some kind) spacing (p :: ps) (p' :: ps')) :
    sequenceAfter kind spacing p ps = sequenceAfter kind spacing p' ps' := by
  induction ps generalizing p p' ps' with
  | nil =>
    cases h
    rfl
  | cons q ps ih =>
    have hseparator := h
    cases h with
    | @cons _ _ _ q' _ ps' hp hgap hrest =>
      have hq : q.outline = q'.outline := by cases hrest <;> assumption
      rw [sequenceAfter, sequenceAfter, doc_eq_of_outline hq, ih hrest, hseparator.separator_eq]

/-- The same line is made of the pieces. -/
theorem SameLine.sequence_eq (h : SameLine (some kind) spacing ps ps') :
    sequence kind spacing ps = sequence kind spacing ps' := by
  have hafter := fun p p' ps ps' (h : SameLine (some kind) spacing (p :: ps) (p' :: ps')) =>
    h.sequenceAfter_eq
  cases h with
  | nil => rfl
  | single hp => simp only [sequence, doc_eq_of_outline hp, sequenceAfter]
  | cons hp hgap hrest =>
    simp only [sequence, doc_eq_of_outline hp, hafter _ _ _ _ (.cons hp hgap hrest)]

end Line

/-- Pieces below nodes that are the same but for positions: if they are lists of modifiers, the
comments inside them have the same modifiers on either side. -/
structure SameChild (source source' : Source) (p p' : Piece) : Prop
    extends SameMember source source' p p' where
  remarks : p.kind = .modifiers → p.comments.dangling.map (remarkSides p.node.children) =
    p'.comments.dangling.map (remarkSides p'.node.children)

section Separators

variable {source source' : Source} {owner : Option NodeKind} {p p' : Piece} {ps ps' : List Piece}

/-- An annotation has a line of its own if it ends its line and its owner lets it. -/
theorem annotationOnOwnLine_some (owner : Option NodeKind) (item following : Tree) :
    annotationOnOwnLine owner item (some following) =
      (!owner.any keepsAnnotationsInline && annotationEndsLine item following) := by
  rw [annotationOnOwnLine, annotationEndsLine, Option.any_some, Bool.and_left_comm, Bool.and_assoc]

/-- The last comment inside a list of modifiers is a line comment behind the last modifier in
both lists or in neither. -/
theorem endsWithLineComment_eq (h : SameChild source source' p p') (hk : p.kind = .modifiers)
    {item item' : Tree} (hitem : p.node.children.getLast? = some item)
    (hitem' : p'.node.children.getLast? = some item') :
    endsWithLineComment p.comments item = endsWithLineComment p'.comments item' := by
  have hsides := congrArg List.getLast? (h.remarks hk)
  have houtlines : p.comments.dangling.getLast?.map (·.comment.outline) =
      p'.comments.dangling.getLast?.map (·.comment.outline) := by
    have hcomments : p.comments.outline p.kind = p'.comments.outline p'.kind :=
      congrArg Piece.comments h.outline
    have hdangling := congrArg (fun c => (c.dangling.map (·.comment)).getLast?) hcomments
    simpa only [NodeComments.map_comment_dangling_outline, List.getLast?_map] using hdangling
  simp only [List.getLast?_map] at hsides
  unfold endsWithLineComment
  generalize p.comments.dangling.getLast? = last at hsides houtlines ⊢
  generalize p'.comments.dangling.getLast? = last' at hsides houtlines ⊢
  cases rel_of_map_eq houtlines with
  | none => rfl
  | @some a a' ha =>
    have hline : a.comment.isLine = a'.comment.isLine := by
      have hsame := congrArg Comment.isLine ha
      exact hsame
    have hbehind : decide (item.span.stop.offset ≤ a.comment.span.start.offset) =
        decide (item'.span.stop.offset ≤ a'.comment.span.start.offset) := by
      have hlast := congrArg List.getLast? (Option.some.inj hsides)
      simp only [remarkSides, List.getLast?_map, hitem, hitem', Option.map_some] at hlast
      exact (Prod.mk.inj (Option.some.inj hlast)).2
    rw [Option.any_some, Option.any_some, hline, hbehind]

/-- The same goes behind lists of modifiers. -/
theorem modifiersSeparator_eq (h : SameChild source source' p p') (hk : p.kind = .modifiers)
    {following following' : Tree}
    (hends : listEndsLine p.node following = listEndsLine p'.node following') :
    modifiersSeparator owner p.node p.comments (some following) =
      modifiersSeparator owner p'.node p'.comments (some following') := by
  have hk' : p'.kind = .modifiers := (kind_eq_of_outline h.outline) ▸ hk
  have hcomments : ∀ {item item'}, p.node.children.getLast? = some item →
      p'.node.children.getLast? = some item' →
      endsWithLineComment p.comments item = endsWithLineComment p'.comments item' :=
    endsWithLineComment_eq h hk
  have hlast : p.node.children.getLast?.map Tree.outline =
      p'.node.children.getLast?.map Tree.outline := by
    have hchildren := congrArg (·.children.getLast?) (node_eq_of_outline h.outline)
    simpa using hchildren
  have hkinds : (p.node.kind == .modifiers) = true ∧ (p'.node.kind == .modifiers) = true :=
    ⟨beq_iff_eq.mpr hk, beq_iff_eq.mpr hk'⟩
  rw [listEndsLine, listEndsLine, hkinds.1, hkinds.2, Bool.true_and, Bool.true_and] at hends
  unfold modifiersSeparator
  generalize p.node.children.getLast? = last at hlast hends hcomments ⊢
  generalize p'.node.children.getLast? = last' at hlast hends hcomments ⊢
  cases rel_of_map_eq hlast with
  | none => rfl
  | some _ =>
    rw [Option.any_some, Option.any_some] at hends
    simp only [annotationOnOwnLine_some, hends, hcomments rfl rfl]

/-- The children of two nodes make up the same line. -/
theorem sameLine_of_sameChild (h : List.Forall₂ (SameChild source source') ps ps')
    (hends : neighbours listEndsLine (ps.map Piece.node) =
      neighbours listEndsLine (ps'.map Piece.node)) (spacing : Spacing) :
    SameLine owner spacing ps ps' := by
  induction h with
  | nil => exact .nil
  | @cons p p' ps ps' hp hps ih =>
    cases hps with
    | nil => exact .single hp.outline
    | cons hq hps =>
      obtain ⟨hfirst, hrest⟩ := List.cons.inj hends
      exact .cons hp.outline (fun hk _ => modifiersSeparator_eq hp hk hfirst) (ih hrest)

end Separators

/-! ## Declarations of types -/

/-- The parts of the declaration of a type, the same but for positions and without modifiers in
their heads. -/
structure SameTypeParts (parts parts' : TypeParts) : Prop where
  modifiers : parts.modifiers = parts'.modifiers
  head : parts.head.map Piece.outline = parts'.head.map Piece.outline
  unmodified : ∀ p ∈ parts.head, p.kind ≠ .modifiers
  clauses : parts.clauses = parts'.clauses
  body : parts.body = parts'.body

/-- What sorting the children of the declaration of a type comes to. -/
inductive SameSorting : Except ShapeError TypeParts → Except ShapeError TypeParts → Prop
  | error (e : ShapeError) : SameSorting (.error e) (.error e)
  | ok {parts parts'} (h : SameTypeParts parts parts') : SameSorting (.ok parts) (.ok parts')

section TypeParts

variable {kind : NodeKind} {ps ps' : List Piece}

/-- One more child is put to the parts. -/
theorem SameSorting.bind {result result' : Except ShapeError TypeParts}
    {add add' : TypeParts → TypeParts} (h : SameSorting result result')
    (hadd : ∀ parts parts', SameTypeParts parts parts' →
      SameTypeParts (add parts) (add' parts')) :
    SameSorting (do return add (← result)) (do return add' (← result')) := by
  cases h with
  | error e => exact .error e
  | ok h => exact .ok (hadd _ _ h)

/-- One more document, and then one more child is put to the parts. -/
theorem SameSorting.of_doc {p p' : Piece} (hp : p.outline = p'.outline)
    {further further' : Doc → Except ShapeError TypeParts}
    (h : ∀ d, SameSorting (further d) (further' d)) :
    SameSorting (p.doc >>= further) (p'.doc >>= further') := by
  rw [doc_eq_of_outline hp]
  cases p'.doc with
  | error e => exact .error e
  | ok d => exact h d

/-- The parts of a type on the same lines are sorted alike. -/
theorem sameSorting_typeParts (h : SameLine (some kind) .standard ps ps') :
    SameSorting (typeParts kind ps) (typeParts kind ps') := by
  induction ps generalizing ps' with
  | nil =>
    cases h
    exact .ok ⟨rfl, rfl, by simp, rfl, rfl⟩
  | cons p ps ih =>
    obtain ⟨p', ps', rfl⟩ : ∃ p' qs, ps' = p' :: qs := by cases h <;> exact ⟨_, _, rfl⟩
    have hp : p.outline = p'.outline := by cases h <;> assumption
    have hrest := ih h.tail
    rw [typeParts, typeParts, ← kind_eq_of_outline hp]
    by_cases hk : p.kind = .modifiers
    · rw [if_pos hk, if_pos hk]
      refine .of_doc hp fun d => ?_
      cases h with
      | single => exact .error _
      | cons hp hgap hline =>
        have hseparator := (SameLine.cons hp hgap hline).separator_eq
        refine hrest.bind fun parts parts' hparts => ?_
        exact { hparts with modifiers := by rw [hseparator, hparts.modifiers] }
    · rw [if_neg hk, if_neg hk]
      split
      · exact .of_doc hp fun d => hrest.bind fun parts parts' hparts =>
          { hparts with clauses := by rw [hparts.clauses] }
      · split
        · exact .of_doc hp fun d => hrest.bind fun parts parts' hparts =>
            { hparts with body := by rw [hparts.body] }
        · refine hrest.bind fun parts parts' hparts => ?_
          exact { hparts with
            head := by rw [List.map_cons, List.map_cons, hp, hparts.head]
            unmodified := List.forall_mem_cons.mpr ⟨hk, hparts.unmodified⟩ }

end TypeParts

/-! ## Modifiers -/

/-- Comments that are the same but for positions, with the same modifiers on either side. -/
structure SameRemark (items items' : List Tree) (a a' : AttachedComment) : Prop where
  outline : a.comment.outline = a'.comment.outline
  sides : remarkSides items a = remarkSides items' a'

section Modifiers

variable {owner : Option NodeKind} {p p' : Piece} {ps ps' : List Piece}
  {as as' : List AttachedComment}

/-- Comments with the same modifiers on either side have the same later ones on either side. -/
theorem SameRemark.tail {t t' : Tree} {ts ts' : List Tree} {a a' : AttachedComment}
    (h : SameRemark (t :: ts) (t' :: ts') a a') : SameRemark ts ts' a a' :=
  ⟨h.outline, (List.cons.inj h.sides).2⟩

/-- The same comments come before the next modifier. -/
theorem SameRemark.comesBefore_eq {ts ts' : List Tree} {a a' : AttachedComment}
    (h : SameRemark ts ts' a a') : comesBefore ts.head? a = comesBefore ts'.head? a' := by
  have hsides := h.sides
  cases ts with
  | nil =>
    rw [List.map_eq_nil_iff.mp hsides.symm]
    rfl
  | cons t ts =>
    obtain ⟨t', ts', rfl, ht, -⟩ := List.map_eq_cons_iff.mp hsides.symm
    exact (Prod.mk.inj ht.symm).1

/-- Comments that are the same one by one. -/
theorem forall₂_sameRemark {items items' : List Tree}
    (houtlines : as.map (·.comment.outline) = as'.map (·.comment.outline))
    (hsides : as.map (remarkSides items) = as'.map (remarkSides items')) :
    List.Forall₂ (SameRemark items items') as as' := by
  induction as generalizing as' with
  | nil =>
    rw [List.map_eq_nil_iff.mp houtlines.symm]
    exact .nil
  | cons a as ih =>
    obtain ⟨a', as', rfl, ha, has⟩ := List.map_eq_cons_iff.mp houtlines.symm
    obtain ⟨hside, hsides⟩ := List.cons.inj hsides
    exact .cons ⟨ha.symm, hside⟩ (ih has.symm hsides)

/-- The comments that come before the next modifier, and those that do not. -/
theorem forall₂_takeWhile_dropWhile {R : AttachedComment → AttachedComment → Prop}
    {p p' : AttachedComment → Bool} (h : List.Forall₂ R as as')
    (hp : ∀ a a', R a a' → p a = p' a') :
    List.Forall₂ R (as.takeWhile p) (as'.takeWhile p') ∧
      List.Forall₂ R (as.dropWhile p) (as'.dropWhile p') := by
  induction h with
  | nil => exact ⟨.nil, .nil⟩
  | @cons a a' as as' ha has ih =>
    simp only [List.takeWhile_cons, List.dropWhile_cons, hp a a' ha]
    split
    · exact ⟨.cons ha ih.1, ih.2⟩
    · exact ⟨.nil, .cons ha has⟩

/-- The same goes behind a modifier and its comments. -/
theorem modifierBreak_eq (owner : Option NodeKind) (hp : p.outline = p'.outline)
    (has : as.map (·.comment.outline) = as'.map (·.comment.outline))
    {following following' : Option Tree}
    (hfollowing : Option.Rel (fun t t' => annotationEndsLine p.node t =
      annotationEndsLine p'.node t') following following') :
    modifierBreak owner p as following = modifierBreak owner p' as' following' := by
  cases hfollowing with
  | none => rfl
  | some hends =>
    have hlast : as.getLast?.any (·.comment.isLine) = as'.getLast?.any (·.comment.isLine) := by
      have hmap := congrArg (fun l => l.getLast?.any Comment.isLine) has
      simp only [List.getLast?_map, Option.any_map] at hmap
      exact hmap
    have hbreaking : p.hasBreakingTrailing = p'.hasBreakingTrailing := by
      rw [← p.hasBreakingTrailing_outline, hp, p'.hasBreakingTrailing_outline]
    simp only [modifierBreak, annotationOnOwnLine_some, hends, hlast, hbreaking]

/-- The same comments are printed behind a modifier. -/
theorem flatMap_modifierComment_eq
    (has : as.map (·.comment.outline) = as'.map (·.comment.outline)) :
    as.flatMap modifierComment = as'.flatMap modifierComment := by
  have hplaceless : ∀ as : List AttachedComment, as.flatMap modifierComment =
      (as.map (·.comment.outline)).flatMap fun c => [.text " ", c.doc] := by
    intro as
    rw [List.flatMap_map]
    exact List.flatMap_congr fun a _ => by rw [modifierComment, a.comment.doc_outline]
  rw [hplaceless, has, ← hplaceless]

/-- Modifiers with the same line ends and the same remarks are printed alike. -/
theorem modifierParts_eq (hps : ps.map Piece.outline = ps'.map Piece.outline)
    (hflags : neighbours annotationEndsLine (ps.map Piece.node) =
      neighbours annotationEndsLine (ps'.map Piece.node))
    (has : List.Forall₂ (SameRemark (ps.map Piece.node) (ps'.map Piece.node)) as as') :
    modifierParts owner as ps = modifierParts owner as' ps' := by
  induction ps generalizing ps' as as' with
  | nil =>
    rw [List.map_eq_nil_iff.mp hps.symm]
    cases as <;> cases as' <;> rfl
  | cons p ps ih =>
    obtain ⟨p', ps', rfl, hp, hps⟩ := List.map_eq_cons_iff.mp hps.symm
    have htail : List.Forall₂ (SameRemark (ps.map Piece.node) (ps'.map Piece.node)) as as' :=
      has.imp fun _ _ h => h.tail
    obtain ⟨hprinted, hpending⟩ := forall₂_takeWhile_dropWhile htail
      fun _ _ h => h.comesBefore_eq
    have hends : Option.Rel (fun t t' => annotationEndsLine p.node t =
        annotationEndsLine p'.node t') (ps.map Piece.node).head? (ps'.map Piece.node).head? := by
      cases ps with
      | nil =>
        rw [List.map_eq_nil_iff.mp hps]
        exact .none
      | cons q ps =>
        obtain ⟨q', ps', rfl, -, -⟩ := List.map_eq_cons_iff.mp hps
        exact .some (List.cons.inj hflags).1
    have hflags' : neighbours annotationEndsLine (ps.map Piece.node) =
        neighbours annotationEndsLine (ps'.map Piece.node) := by
      cases ps with
      | nil => rw [List.map_eq_nil_iff.mp hps]
      | cons q ps =>
        obtain ⟨q', ps', rfl, -, -⟩ := List.map_eq_cons_iff.mp hps
        exact (List.cons.inj hflags).2
    have hsame := map_eq_of_forall₂ hprinted fun _ _ h => h.outline
    simp only [modifierParts, ← List.head?_map, doc_eq_of_outline hp.symm,
      ih hps.symm hflags' hpending, flatMap_modifierComment_eq hsame,
      modifierBreak_eq owner hp.symm hsame hends]

end Modifiers

end JavaFormat.Layout
