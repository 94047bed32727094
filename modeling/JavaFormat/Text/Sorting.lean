/-!
# Stable sorting by insertion

Comments, paths and comment keys are put into order by one sort. Elements that
the order does not tell apart keep their places relative to each other.
-/

namespace JavaFormat.Text

/-- Put `x` in front of the first element it may precede. -/
def insertSorted {α : Type} (le : α → α → Bool) (x : α) : List α → List α
  | [] => [x]
  | y :: ys => if le x y then x :: y :: ys else y :: insertSorted le x ys

/-- Sort by insertion from the right, so that equal elements keep their order. -/
def sort {α : Type} (le : α → α → Bool) (l : List α) : List α :=
  l.foldr (insertSorted le) []

/-- Insertion adds exactly the element inserted. -/
theorem insertSorted_perm {α : Type} (le : α → α → Bool) (x : α) (l : List α) :
    (insertSorted le x l).Perm (x :: l) := by
  induction l with
  | nil => exact .refl _
  | cons y ys ih =>
    rw [insertSorted]
    split
    · exact .refl _
    · exact (ih.cons y).trans (.swap x y ys)

/-- Sorting neither loses nor adds an element. -/
theorem sort_perm {α : Type} (le : α → α → Bool) (l : List α) : (sort le l).Perm l := by
  induction l with
  | nil => exact .refl _
  | cons x l ih => exact (insertSorted_perm le x _).trans (ih.cons x)

/-- The elements after an insertion. -/
theorem mem_insertSorted {α : Type} {le : α → α → Bool} {x y : α} {l : List α} :
    y ∈ insertSorted le x l ↔ y = x ∨ y ∈ l := by
  rw [(insertSorted_perm le x l).mem_iff, List.mem_cons]

/-- Insertion keeps a list in order. -/
theorem pairwise_insertSorted {α : Type} {le : α → α → Bool} (total : ∀ a b, le a b || le b a)
    (trans : ∀ a b c, le a b → le b c → le a c) {x : α} {l : List α}
    (h : l.Pairwise (le · ·)) : (insertSorted le x l).Pairwise (le · ·) := by
  induction l with
  | nil => simp [insertSorted]
  | cons y ys ih =>
    obtain ⟨above, rest⟩ := List.pairwise_cons.mp h
    rw [insertSorted]
    split
    · rename_i hx
      refine List.pairwise_cons.mpr ⟨fun z hz => ?_, h⟩
      rcases List.mem_cons.mp hz with rfl | hz
      · exact hx
      · exact trans x y z hx (above z hz)
    · rename_i hx
      refine List.pairwise_cons.mpr ⟨fun z hz => ?_, ih rest⟩
      rcases mem_insertSorted.mp hz with rfl | hz
      · simpa [hx] using total z y
      · exact above z hz

/-- A sorted list is in order. -/
theorem pairwise_sort {α : Type} {le : α → α → Bool} (total : ∀ a b, le a b || le b a)
    (trans : ∀ a b c, le a b → le b c → le a c) (l : List α) :
    (sort le l).Pairwise (le · ·) := by
  induction l with
  | nil => exact .nil
  | cons x l ih => exact pairwise_insertSorted total trans ih

end JavaFormat.Text
