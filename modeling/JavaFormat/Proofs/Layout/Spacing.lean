import JavaFormat.Layout.Spacing
import JavaFormat.Proofs.Layout.Complete

/-!
# Children on one line lose nothing

Whatever decides about the space between two neighbours, it is a space, a break or
nothing.
-/

namespace JavaFormat.Layout

open Doc

variable {share : Tree → Multiset Remark}

/-- What separates modifiers from what follows holds no leaf and no comment. -/
theorem empty_modifiersSeparator (owner : Option NodeKind) (modifiers : Tree)
    (comments : NodeComments) (following : Option Tree) :
    Empty (modifiersSeparator owner modifiers comments following) := by
  unfold modifiersSeparator
  split
  · exact empty_blank
  · split
    · exact empty_hardline
    · exact empty_blank

/-- What separates two pieces holds no leaf and no comment. -/
theorem empty_separator (owner : Option NodeKind) (spacing : Spacing) (sibling : Option Tree)
    (previous following : Piece) : Empty (separator owner spacing sibling previous following) := by
  unfold separator
  split
  · exact empty_text
  · split
    · exact empty_hardline
    · split
      · exact empty_modifiersSeparator ..
      · split
        · exact empty_text
        · exact empty_blank

/-- A continuation holds no leaf and no comment. -/
theorem empty_continuation (previous : Piece) : Empty (continuation previous) := by
  unfold continuation
  split
  · exact empty_hardline
  · exact empty_blank

/-- A sequence behind a piece is printed with its leaves in order and its comments. -/
theorem yieldsAll_sequenceAfter (owner : NodeKind) (spacing : Spacing) (previous : Piece)
    {ps : List Piece} (h : ∀ p ∈ ps, p.Complete share) :
    YieldsAll (sequenceAfter owner spacing previous ps) (texts ps) (shares share ps) := by
  induction ps generalizing previous with
  | nil => exact .pure .nil
  | cons p ps ih =>
    obtain ⟨hp, hps⟩ := List.forall_mem_cons.mp h
    rw [sequenceAfter, texts_cons, shares_cons]
    exact hp.doc.bind fun d hd => (ih p hps).bind fun ds hds =>
      .pure (.skip (empty_separator ..) (.cons hd hds))

/-- Children on one line print all of their leaves and comments. -/
theorem yields_sequence (owner : NodeKind) (spacing : Spacing) {ps : List Piece}
    (h : ∀ p ∈ ps, p.Complete share) :
    Yields (sequence owner spacing ps) (texts ps) (shares share ps) := by
  cases ps with
  | nil => exact .pure (Each.cat .nil)
  | cons p ps =>
    obtain ⟨hp, hps⟩ := List.forall_mem_cons.mp h
    rw [sequence, texts_cons, shares_cons]
    exact hp.doc.bind fun d hd => (yieldsAll_sequenceAfter owner spacing p hps).bind fun ds hds =>
      .pure (Each.cons hd hds).cat

/-- Pieces that are printed tight are printed with their leaves in order and their comments. -/
theorem yieldsAll_tightAfter (previous : Piece) {ps : List Piece}
    (h : ∀ p ∈ ps, p.Complete share) :
    YieldsAll (tightAfter previous ps) (texts ps) (shares share ps) := by
  induction ps generalizing previous with
  | nil => exact .pure .nil
  | cons p ps ih =>
    obtain ⟨hp, hps⟩ := List.forall_mem_cons.mp h
    rw [tightAfter, texts_cons, shares_cons]
    refine hp.doc.bind fun d hd => (ih p hps).bind fun ds hds => .pure ?_
    split
    · exact .skip empty_blank (.cons hd hds)
    · exact .cons hd hds

/-- Children without anything between them print all of their leaves and comments. -/
theorem yields_tight {ps : List Piece} (h : ∀ p ∈ ps, p.Complete share) :
    Yields (tight ps) (texts ps) (shares share ps) := by
  cases ps with
  | nil => exact .pure (Each.cat .nil)
  | cons p ps =>
    obtain ⟨hp, hps⟩ := List.forall_mem_cons.mp h
    rw [tight, texts_cons, shares_cons]
    exact hp.doc.bind fun d hd => (yieldsAll_tightAfter p hps).bind fun ds hds =>
      .pure (Each.cons hd hds).cat

end JavaFormat.Layout
