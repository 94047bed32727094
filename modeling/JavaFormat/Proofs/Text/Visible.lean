import JavaFormat.Layout.Remark
import JavaFormat.Proofs.Doc.Script
import Mathlib.Data.List.ReduceOption

/-!
# What is seen of a text

The visible characters of a text are those that are no white space. Trimming keeps
them, and so does indenting a comment anew: whatever is read off the document of a
comment shows the characters of the comment.
-/

namespace JavaFormat

namespace Text

/-- Padding is white space. -/
theorem isBlank_of_isPadding {c : Char} (h : isPadding c = true) : isBlank c = true := by
  have hc : c = ' ' ∨ c = '\t' := by simpa [isPadding] using h
  rcases hc with rfl | rfl <;> decide

/-- The characters of a text that are no white space. -/
def visible (s : String) : List Char := s.toList.filter fun c => !isBlank c

/-- Dropping blanks at the beginning leaves what is seen. -/
theorem filter_dropWhile (l : List Char) :
    (l.dropWhile isBlank).filter (fun c => !isBlank c) = l.filter fun c => !isBlank c := by
  induction l with
  | nil => rfl
  | cons c l ih =>
    cases hc : isBlank c with
    | true => simp [hc, ih]
    | false => simp [hc]

/-- Dropping blanks at the end leaves what is seen. -/
theorem filter_dropEndWhile (l : List Char) :
    (dropEndWhile isBlank l).filter (fun c => !isBlank c) = l.filter fun c => !isBlank c := by
  rw [dropEndWhile, List.filter_reverse, filter_dropWhile, List.filter_reverse, List.reverse_reverse]

/-- Trimming the end takes nothing away that is visible. -/
@[simp] theorem visible_trimEnd (s : String) : visible (trimEnd s) = visible s := by
  rw [visible, trimEnd, String.toList_ofList, filter_dropEndWhile, visible]

/-- Trimming takes nothing away that is visible. -/
@[simp] theorem visible_trim (s : String) : visible (trim s) = visible s := by
  rw [visible, trim, String.toList_ofList, filter_dropEndWhile, filter_dropWhile, visible]

/-- What is seen of a text is seen of its lines. -/
theorem visible_eq_flatMap_lines (s : String) : visible s = (lines s).flatMap visible := by
  have hjoined : ∀ ls : List (List Char),
      (List.intercalate ['\n'] ls).filter (fun c => !isBlank c) =
        ls.flatMap fun l => l.filter fun c => !isBlank c := by
    intro ls
    induction ls with
    | nil => rfl
    | cons l ls ih =>
      cases ls with
      | nil => simp [List.intercalate]
      | cons m ms =>
        have hbreak : isBlank '\n' = true := by decide
        rw [List.intercalate_cons_cons, List.filter_append, List.filter_append, ih]
        simp [hbreak]
  have hlines : (lines s).flatMap visible =
      (s.toList.splitOn '\n').flatMap fun l => l.filter fun c => !isBlank c := by
    rw [lines, List.flatMap_map]
    simp [visible]
  rw [hlines, ← hjoined, List.intercalate_splitOn, visible]

end Text

namespace Doc

/-- The characters of a reading that are no white space. -/
def visible (r : Reading) : List Char := r.reduceOption.filter fun c => !Text.isBlank c

/-- Nothing is visible of the empty reading. -/
@[simp] theorem visible_nil : visible [] = [] := rfl

/-- A place that may be blank is not visible. -/
@[simp] theorem visible_none (r : Reading) : visible (none :: r) = visible r := by
  simp [visible]

/-- A blank is not visible. -/
@[simp] theorem visible_blank (r : Reading) : visible (some ' ' :: r) = visible r := by
  have hblank : Text.isBlank ' ' = true := by decide
  simp [visible, hblank]

/-- What is visible of two readings together. -/
@[simp] theorem visible_append (r₁ r₂ : Reading) : visible (r₁ ++ r₂) = visible r₁ ++ visible r₂ := by
  simp [visible, List.reduceOption_append]

/-- The inked characters of a text are the visible ones. -/
@[simp] theorem visible_inked (s : String) : visible (inked s) = Text.visible s := by
  have hkept : (s.toList.map some).reduceOption = s.toList := by
    simp [List.reduceOption]
  rw [visible, inked, hkept, Text.visible]

/-- What is seen of texts with breaks between them. -/
theorem visible_of_interleave_hardline {ss : List String} {r : Reading}
    (hr : ReadsAll (interleave hardline (ss.map .text)) r) :
    visible r = ss.flatMap Text.visible := by
  induction ss generalizing r with
  | nil =>
    obtain rfl : r = [] := hr
    rfl
  | cons s ss ih =>
    cases ss with
    | nil =>
      obtain ⟨a, b, rfl, rfl, rfl⟩ := hr
      simp
    | cons t ts =>
      obtain ⟨a, b, rfl, ⟨c, d, hc, hd, rfl⟩, rfl⟩ := hr
      obtain rfl := reads_hardline.mp hc
      have hrest := ih hd
      rw [visible_append, visible_inked, List.singleton_append, visible_none, hrest]
      rfl

end Doc

/-- What is read off the document of a comment shows what is seen of the comment. -/
theorem Comment.visible_of_reads (c : Comment) {r : Doc.Reading} (hr : c.doc.Reads r) :
    Doc.visible r = Text.visible c.text := by
  unfold Comment.doc at hr
  split at hr
  · obtain rfl : r = Doc.inked c.text := hr
    exact Doc.visible_inked c.text
  · split at hr
    · rename_i first second rest hlines
      split at hr
      · rw [Doc.reads_join] at hr
        have hseen := Doc.visible_of_interleave_hardline hr
        have hstarred : ∀ line, Text.visible (starredLine line) = Text.visible line := by
          intro line
          have hblank : Text.isBlank ' ' = true := by decide
          rw [← Text.visible_trim line, starredLine, Text.visible, Text.visible]
          simp [hblank]
        rw [hseen, Text.visible_eq_flatMap_lines c.text, hlines, List.flatMap_cons,
          List.flatMap_cons, Text.visible_trimEnd, List.flatMap_map]
        simp [hstarred]
      · rw [Doc.reads_ofLines.mp hr]
        exact Doc.visible_inked c.text
    · obtain rfl : r = Doc.inked c.text := hr
      exact Doc.visible_inked c.text

end JavaFormat
