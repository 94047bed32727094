import JavaFormat.Proofs.Layout.Reindenting

/-!
# Comments but for their indentation

A comment that is indented anew is printed line by line, so nothing depends on the blanks in
front of its lines and behind them: it has the document of its settled text, in which there are
none but those in front of the asterisks. What is printed of it are its rows.
-/

namespace JavaFormat

open Doc

namespace Text

/-- A line that begins with something visible behind its blanks is solid without them. -/
theorem solid_trim {s : String} {c : Char} (hs : (trimStart s).toList.head? = some c)
    (hc : isBlank c = false) : Solid (trim s) where
  begins := by
    obtain ⟨cs, hhead⟩ := List.head?_eq_some_iff.mp (head?_trim hs hc)
    exact ⟨c, cs, hhead, hc⟩
  ends := by
    rw [trimStart, String.toList_ofList] at hs
    exact endsVisibly_dropEndWhile ⟨c, List.mem_of_head? hs, hc⟩

/-- A text that begins visibly is solid without the blanks behind it. -/
theorem solid_trimEnd {s : String} (h : BeginsVisibly s) : Solid (trimEnd s) := by
  obtain ⟨c, cs, hs, hc⟩ := h
  have hstart : trimStart s = s := by
    rw [trimStart, hs, List.dropWhile_cons_of_neg (by simp [hc]), ← hs, String.ofList_toList]
  have htrim := solid_trim (s := s) (by rw [hstart, hs]; rfl) hc
  rwa [trim_eq, hstart] at htrim

end Text

/-- The text of a comment, that of one that is indented anew as it is printed without indentation.
-/
def Comment.settledText (c : Comment) : String :=
  if c.isReindented then
    starredText 0 ((Text.lines c.text).headD "") (Text.lines c.text).tail
  else c.text

/-- A comment with its settled text. -/
def Comment.settled (c : Comment) : Comment := { c with text := c.settledText }

/-- The lines of a comment that is indented anew, without the blanks around them. Any other comment
counts as one row. -/
def Comment.rows (c : Comment) : List String :=
  if c.isReindented then
    Text.trimEnd ((Text.lines c.text).headD "") :: (Text.lines c.text).tail.map Text.trim
  else [c.text]

namespace Comment

variable {c : Comment}

/-- A comment that is indented anew has further lines, and each begins with an asterisk. -/
theorem isReindented_iff : c.isReindented = true ↔ ∃ first more, c.isLine = false ∧
    Text.lines c.text = first :: more ∧ more ≠ [] ∧ isStarred more = true := by
  simp only [isReindented, Bool.and_eq_true, Bool.not_eq_true', decide_eq_true_eq]
  constructor
  · rintro ⟨⟨hblock, hlong⟩, hstarred⟩
    cases hlines : Text.lines c.text with
    | nil => simp [hlines] at hlong
    | cons first more =>
      rw [hlines] at hlong hstarred
      refine ⟨first, more, hblock, rfl, ?_, hstarred⟩
      rintro rfl
      simp at hlong
  · rintro ⟨first, more, hblock, hlines, hmore, hstarred⟩
    rw [hlines]
    have hlong := List.length_pos_iff.mpr hmore
    exact ⟨⟨hblock, by simpa using hlong⟩, hstarred⟩

/-- A comment that is not indented anew is settled. -/
theorem settled_of_not (h : c.isReindented = false) : c.settled = c := by
  rw [settled, settledText, h]
  rfl

section Reindented

variable {first : String} {more : List String} (hblock : c.isLine = false)
  (hlines : Text.lines c.text = first :: more) (hmore : more ≠ [])
  (hstarred : isStarred more = true)

include hblock hlines hmore hstarred

/-- The settled lines of a comment that is indented anew. -/
theorem lines_settledText : Text.lines c.settledText = Text.trimEnd first ::
    more.map fun line => Text.indentation 0 ++ starredLine line := by
  have hreindented : c.isReindented = true :=
    isReindented_iff.mpr ⟨first, more, hblock, hlines, hmore, hstarred⟩
  have hfeed : ∀ l ∈ first :: more, '\n' ∉ l.toList := by
    rw [← hlines]
    exact fun l hl => Text.not_mem_of_mem_lines hl
  rw [settledText, if_pos hreindented, hlines]
  exact lines_starredText hfeed

/-- A settled comment is indented anew if the comment is. -/
theorem isReindented_settled : c.settled.isReindented = true :=
  isReindented_iff.mpr ⟨_, _, hblock, lines_settledText hblock hlines hmore hstarred, by simpa,
    isStarred_indented 0 hstarred⟩

end Reindented

/-- A settled comment is printed like the comment. -/
theorem doc_settled (c : Comment) : c.settled.doc = c.doc := by
  cases hc : c.isReindented with
  | false => rw [settled_of_not hc]
  | true =>
    obtain ⟨first, more, hblock, hlines, hmore, hstarred⟩ := isReindented_iff.mp hc
    have hsettled := lines_settledText hblock hlines hmore hstarred
    rw [doc_of_isStarred (c := c.settled) hblock hsettled (by simpa)
      (isStarred_indented 0 hstarred), doc_of_isStarred hblock hlines hmore hstarred,
      Text.trimEnd_trimEnd, List.map_map]
    simp only [Function.comp_def, starredLine_indented]

/-- A settled comment has the rows of the comment. -/
theorem rows_settled (c : Comment) : c.settled.rows = c.rows := by
  cases hc : c.isReindented with
  | false => rw [settled_of_not hc]
  | true =>
    obtain ⟨first, more, hblock, hlines, hmore, hstarred⟩ := isReindented_iff.mp hc
    have hsettled := lines_settledText hblock hlines hmore hstarred
    have htrim : ∀ line, Text.trim (Text.indentation 0 ++ starredLine line) = Text.trim line := by
      intro line
      rw [Text.trim_eq, Text.trimStart_append Text.isBlank_of_mem_indentation, starredLine,
        Text.trimStart_space, ← Text.trim_eq, Text.trim_trim]
    have hrows : c.settled.rows = Text.trimEnd ((Text.lines c.settledText).headD "") ::
        (Text.lines c.settledText).tail.map Text.trim :=
      if_pos (isReindented_settled hblock hlines hmore hstarred)
    rw [hrows, hsettled, rows, if_pos hc, hlines]
    simp only [List.headD_cons, List.tail_cons, Text.trimEnd_trimEnd, List.map_map,
      Function.comp_def, htrim]

/-- The rows of a comment that begins and ends visibly do so as well. -/
theorem solid_of_mem_rows (h : Text.Solid c.text) : ∀ row ∈ c.rows, Text.Solid row := by
  cases hc : c.isReindented with
  | false => simpa [rows, hc] using h
  | true =>
    obtain ⟨first, more, hblock, hlines, hmore, hstarred⟩ := isReindented_iff.mp hc
    rw [rows, if_pos hc, hlines, List.headD_cons, List.tail_cons]
    refine List.forall_mem_cons.mpr ⟨?_, fun row hrow => ?_⟩
    · exact Text.solid_trimEnd (h.begins.of_lines hlines)
    · obtain ⟨line, hline, rfl⟩ := List.mem_map.mp hrow
      have hstar := List.all_eq_true.mp hstarred line hline
      exact Text.solid_trim (by simpa using hstar) (by decide)

end Comment

end JavaFormat
