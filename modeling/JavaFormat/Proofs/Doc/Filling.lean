import JavaFormat.Proofs.Doc.Notes
import Mathlib.Logic.Function.Iterate

/-!
# Filling lines with words

A fill of words with spaces between them is greedy: a word goes on the line if it still ends
within the width, and begins a new line otherwise. The renderer decides this one pair of words
at a time (`fits_pair`): it measures a word together with the space and the word behind it
before it prints any of them, so a word that has run over the width is followed by a break
whatever comes next. What a word is made of makes no difference, as long as it is measured and
printed as a text (`WrittenAs`).
-/

namespace JavaFormat.Doc

variable {options : Options}

/-- What greedy line filling puts behind a word that ends in a column: each word after one
space if it ends within `width` there, or else at the beginning of a new line, which is
indented. -/
def greedyAfter (width indentation column : Nat) : List String → String
  | [] => ""
  | w :: ws =>
    if column + 1 + w.length ≤ width then
      " " ++ w ++ greedyAfter width indentation (column + 1 + w.length) ws
    else
      "\n" ++ String.ofList (List.replicate indentation ' ') ++ w ++
        greedyAfter width indentation (indentation + w.length) ws

/-- Greedy line filling behind what stands on the line already. -/
def greedyFill (width indentation : Nat) (before : String) : List String → String
  | [] => before
  | w :: ws => before ++ w ++ greedyAfter width indentation (before.length + w.length) ws

/-- The parts of a fill of words with spaces between them. -/
def wordParts (words : List String) : List Doc := interleave space (words.map .text)

/-- A word can be kept apart from its neighbours: no blank of a line is in it, and it is not
empty. -/
def IsWord (w : String) : Prop := w ≠ "" ∧ ∀ c ∈ w.toList, Text.isPadding c = false

/-! ## Measuring -/

/-- Whether a document is measured and printed as a text, whatever is around it. -/
structure WrittenAs (d : Doc) (w : String) : Prop where
  fit (strict : Bool) (mode : Mode) (width : Nat) :
    d.fit strict mode width = (text w).fit strict mode width
  steps (options : Options) (l : Nat) (m : Mode) (s : State) :
    State.Steps options { s with stack := ⟨l, m, d⟩ :: s.stack } (s.print w)

/-- A text is written as itself. -/
theorem writtenAs_text (w : String) : WrittenAs (.text w) w :=
  ⟨fun _ _ _ => rfl, fun _ _ _ _ => .single rfl⟩

/-- A word fits together with the space and the word behind it if the second word ends within
the room. -/
theorem fits_pair (room : Int) (level : Nat) (v w : String) :
    fits? true room [⟨level, .flat, .concat [.text v, space, .text w]⟩] =
      some (decide ((v.length + 1 + w.length : Int) ≤ room)) := by
  simp only [fits?, fitCommands, fit, fitAll, space]
  by_cases hroom : room < 0
  · have hlong : ¬(v.length + 1 + w.length : Int) ≤ room := by omega
    simp [hroom, hlong]
  obtain ⟨width, rfl⟩ := Int.eq_ofNat_of_zero_le (Int.not_lt.mp hroom)
  simp only [if_neg hroom, Int.toNat_natCast]
  by_cases hv : v.length ≤ width
  · by_cases hspace : 1 ≤ width - v.length
    · by_cases hw : w.length ≤ width - v.length - 1
      · have hfits : (v.length + 1 + w.length : Int) ≤ width := by omega
        simp [hv, hspace, hw, hfits]
      · have hlong : ¬(v.length + 1 + w.length : Int) ≤ width := by omega
        simp [hv, hspace, hw, hlong]
    · have hlong : ¬(v.length + 1 + w.length : Int) ≤ width := by omega
      simp [hv, hspace, hlong]
  · have hlong : ¬(v.length + 1 + w.length : Int) ≤ width := by omega
    simp [hv, hlong]

section Written

variable {d e : Doc} {v w : String}

/-- What is written as a word either fits or does not. -/
theorem WrittenAs.exists_fits (hd : WrittenAs d v) (room : Int) (level : Nat) :
    ∃ fits, fits? true room [⟨level, .flat, d⟩] = some fits := by
  obtain ⟨fits, hfits⟩ := @Doc.exists_fits True true room [⟨level, .flat, .text v⟩] (by simp)
  exact ⟨fits, (fits_congr (fun width => hd.fit true .flat width) fun _ => rfl).trans hfits⟩

/-- Two words and the space between them fit if there is room for all of it. -/
theorem WrittenAs.fits_pair (hd : WrittenAs d v) (he : WrittenAs e w) (room : Int) (level : Nat) :
    fits? true room [⟨level, .flat, .concat [d, space, e]⟩] =
      some (decide ((v.length + 1 + w.length : Int) ≤ room)) := by
  have hfit : ∀ width, Doc.fit true .flat width (.concat [d, space, e]) =
      Doc.fit true .flat width (.concat [.text v, space, .text w]) := by
    intro width
    simp only [Doc.fit, fitAll_cons, hd.fit, he.fit]
  exact (fits_congr hfit fun _ => rfl).trans (Doc.fits_pair room level v w)

/-- Of two or more words the first is printed, then the space behind it, flat if the second
word fits. -/
theorem exists_fillCommands_written (hd : WrittenAs d v) (he : WrittenAs e w) (room : Int)
    (level : Nat) (mode : Mode) (ds : List Doc) :
    ∃ m, fillCommands room level mode (interleave space (d :: e :: ds)) = some [⟨level, m, d⟩,
      ⟨level, .ofFits (decide ((v.length + 1 + w.length : Int) ≤ room)), space⟩,
      ⟨level, mode, .fill (interleave space (e :: ds))⟩] := by
  obtain ⟨more, hrest, hall⟩ : ∃ more, interleave space (e :: ds) = e :: more ∧
      interleave space (d :: e :: ds) = d :: space :: e :: more := by
    cases ds <;> exact ⟨_, rfl, rfl⟩
  obtain ⟨fits, hfits⟩ := hd.exists_fits room level
  rw [hrest, hall, fillCommands, hfits, hd.fits_pair he]
  by_cases hpair : (v.length + 1 + w.length : Int) ≤ room
  · exact ⟨.flat, by simp [hpair, Mode.ofFits]⟩
  · exact ⟨.ofFits fits, by simp [hpair, Mode.ofFits]⟩

end Written

/-! ## Printing -/

/-- Nothing is dropped at the end of a line whose last character is no blank of a line. -/
theorem dropWhile_isPadding {s : String} {cs : List Char} {c : Char} (hs : s.toList = cs ++ [c])
    (hc : Text.isPadding c = false) (printed : List Char) :
    (s.toList.reverse ++ printed).dropWhile Text.isPadding = s.toList.reverse ++ printed := by
  simp [hs, hc]

/-- Whether the last character of a text is no blank of a line. -/
def EndsUnpadded (w : String) : Prop := ∃ cs c, w.toList = cs ++ [c] ∧ Text.isPadding c = false

/-- A word ends in no padding. -/
theorem IsWord.endsUnpadded {w : String} (h : IsWord w) : EndsUnpadded w := by
  have hne : w.toList ≠ [] := mt String.toList_eq_nil_iff.mp h.1
  exact ⟨_, _, (List.dropLast_append_getLast hne).symm, h.2 _ (List.getLast_mem hne)⟩

section Steps

variable {k column : Nat} {mode : Mode} {d e : Doc} {ds : List Doc} {v w : String}
  {rest : List Command} {printed : List Char} {remeasure : Bool}

/-- One word of a fill is printed with the space behind it, if the next word fits. -/
theorem steps_word_fits (hd : WrittenAs d v) (he : WrittenAs e w)
    (hfits : column + v.length + 1 + w.length ≤ options.printWidth) :
    State.Steps options
      ⟨⟨k, mode, .fill (interleave space (d :: e :: ds))⟩ :: rest, [], printed, column, remeasure⟩
      ⟨⟨k, mode, .fill (interleave space (e :: ds))⟩ :: rest, [],
        ' ' :: (v.toList.reverse ++ printed), column + v.length + 1, remeasure⟩ := by
  obtain ⟨m, hcommands⟩ :=
    exists_fillCommands_written hd he ((options.printWidth : Int) - column) k mode ds
  have hroom : (v.length + 1 + w.length : Int) ≤ options.printWidth - column := by omega
  rw [decide_eq_true hroom] at hcommands
  refine .head (b := ⟨⟨k, m, d⟩ :: ⟨k, .flat, space⟩ ::
    ⟨k, mode, .fill (interleave space (e :: ds))⟩ :: rest, [], printed, column, remeasure⟩) ?_ ?_
  · simp [State.step, State.execute, State.room, hcommands, Mode.ofFits]
  · exact (hd.steps options k m ⟨_, [], printed, column, remeasure⟩).trans (.single rfl)

/-- Otherwise the line ends with it. -/
theorem steps_word_over (hd : WrittenAs d v) (he : WrittenAs e w) (hv : EndsUnpadded v)
    (hover : ¬column + v.length + 1 + w.length ≤ options.printWidth) :
    State.Steps options
      ⟨⟨k, mode, .fill (interleave space (d :: e :: ds))⟩ :: rest, [], printed, column, remeasure⟩
      ⟨⟨k, mode, .fill (interleave space (e :: ds))⟩ :: rest, [],
        List.replicate (k * options.tabWidth) ' ' ++ '\n' :: (v.toList.reverse ++ printed),
        k * options.tabWidth, remeasure⟩ := by
  obtain ⟨m, hcommands⟩ :=
    exists_fillCommands_written hd he ((options.printWidth : Int) - column) k mode ds
  have hroom : ¬(v.length + 1 + w.length : Int) ≤ options.printWidth - column := by omega
  rw [decide_eq_false hroom] at hcommands
  refine .head (b := ⟨⟨k, m, d⟩ :: ⟨k, .broken, space⟩ ::
    ⟨k, mode, .fill (interleave space (e :: ds))⟩ :: rest, [], printed, column, remeasure⟩) ?_ ?_
  · simp [State.step, State.execute, State.room, hcommands, Mode.ofFits]
  · obtain ⟨cs, c, hlast, hc⟩ := hv
    refine (hd.steps options k m ⟨_, [], printed, column, remeasure⟩).trans (.single ?_)
    simp [State.step, State.execute, State.takeBreak, State.breakLine, State.print, space,
      dropWhile_isPadding hlast hc]

/-- The last word of a fill is printed. -/
theorem steps_last_word (hd : WrittenAs d v) :
    State.Steps options
      ⟨⟨k, mode, .fill (interleave space [d])⟩ :: rest, [], printed, column, remeasure⟩
      ⟨rest, [], v.toList.reverse ++ printed, column + v.length, remeasure⟩ := by
  obtain ⟨fits, hfits⟩ := hd.exists_fits ((options.printWidth : Int) - column) k
  refine .head (b := ⟨⟨k, .ofFits fits, d⟩ :: rest, [], printed, column, remeasure⟩) ?_
    (hd.steps options k _ ⟨rest, [], printed, column, remeasure⟩)
  simp [State.step, State.execute, State.room, interleave, fillCommands, hfits]

end Steps

/-- A fill of documents that are written as words is printed as greedy line filling puts the
words, whatever stands in front of it and is to come behind it. Only the words that a break may
follow have to end in no blank. -/
theorem exists_steps_fill (k : Nat) (mode : Mode) (remeasure : Bool) (rest : List Command)
    {ds : List Doc} {ws : List String} (hws : List.Forall₂ WrittenAs ds ws) {d : Doc} {w : String}
    (hw : WrittenAs d w) (hends : ∀ v ∈ (w :: ws).dropLast, EndsUnpadded v)
    (printed : List Char) (column : Nat) :
    ∃ column', State.Steps options
      ⟨⟨k, mode, .fill (interleave space (d :: ds))⟩ :: rest, [], printed, column, remeasure⟩
      ⟨rest, [], (w ++ greedyAfter options.printWidth (k * options.tabWidth) (column + w.length)
        ws).toList.reverse ++ printed, column', remeasure⟩ := by
  induction hws generalizing d w printed column with
  | nil => exact ⟨_, by simpa [greedyAfter] using steps_last_word hw⟩
  | @cons e v ds ws hv hws ih =>
    rw [List.dropLast_cons_cons] at hends
    obtain ⟨hfirst, hothers⟩ := List.forall_mem_cons.mp hends
    rw [greedyAfter]
    split
    · rename_i hfits
      obtain ⟨column', hsteps⟩ := ih hv hothers (' ' :: (w.toList.reverse ++ printed))
        (column + w.length + 1)
      exact ⟨column', (steps_word_fits hw hv hfits).trans (by simpa using hsteps)⟩
    · rename_i hover
      obtain ⟨column', hsteps⟩ := ih hv hothers
        (List.replicate (k * options.tabWidth) ' ' ++ '\n' :: (w.toList.reverse ++ printed))
        (k * options.tabWidth)
      exact ⟨column', (steps_word_over hw hv hfirst hover).trans (by simpa using hsteps)⟩

/-- A fill of words is printed as greedy line filling puts them, whatever stands in front of
it. -/
theorem exists_steps_words (k : Nat) (mode : Mode) (remeasure : Bool) (w : String)
    (ws : List String) (hwords : ∀ v ∈ w :: ws, IsWord v) (printed : List Char) (column : Nat) :
    ∃ column', State.Steps options
      ⟨[⟨k, mode, .fill (wordParts (w :: ws))⟩], [], printed, column, remeasure⟩
      ⟨[], [], (w ++ greedyAfter options.printWidth (k * options.tabWidth) (column + w.length)
        ws).toList.reverse ++ printed, column', remeasure⟩ := by
  have hwritten : List.Forall₂ WrittenAs (ws.map .text) ws := by
    rw [List.forall₂_map_left_iff]
    exact List.forall₂_same.mpr fun v _ => writtenAs_text v
  exact exists_steps_fill k mode remeasure [] hwritten (writtenAs_text w)
    (fun v hv => (hwords v (List.dropLast_subset _ hv)).endsUnpadded) printed column

/-- Indentation is entered without anything being printed. -/
theorem steps_indents (k level : Nat) (mode : Mode) (d : Doc) (s : State) :
    State.Steps options { s with stack := ⟨level, mode, Doc.indent^[k] d⟩ :: s.stack }
      { s with stack := ⟨level + k, mode, d⟩ :: s.stack } := by
  induction k generalizing level with
  | zero => exact .refl
  | succ k ih =>
    rw [Function.iterate_succ_apply']
    refine .head (b := { s with stack := ⟨level + 1, mode, Doc.indent^[k] d⟩ :: s.stack }) rfl ?_
    rw [Nat.add_comm k, ← Nat.add_assoc]
    exact ih (level + 1)

/-! ## Rendering -/

/-- Marking the forced breaks below a number of indentations. -/
theorem markBreaks_indents (k : Nat) (d : Doc) :
    (Doc.indent^[k] d).markBreaks = Doc.indent^[k] d.markBreaks := by
  induction k with
  | zero => rfl
  | succ k ih => rw [Function.iterate_succ_apply', Function.iterate_succ_apply', markBreaks, ih]

/-- There is no group to be marked in a fill of words. -/
theorem markBreaksAll_wordParts : ∀ words : List String,
    markBreaksAll (wordParts words) = wordParts words
  | [] => rfl
  | [_] => rfl
  | v :: w :: ws => congrArg (Doc.text v :: space :: ·) (markBreaksAll_wordParts (w :: ws))

/-- A text with a fill behind it, put together. -/
theorem cat_indents (before : String) (k : Nat) (parts : List Doc) :
    cat [.text before, Doc.indent^[k] (.fill parts)] =
      if before = "" then Doc.indent^[k] (.fill parts)
      else .concat [.text before, Doc.indent^[k] (.fill parts)] := by
  have hflat : flatten (Doc.indent^[k] (.fill parts)) = [Doc.indent^[k] (.fill parts)] := by
    cases k with
    | zero => rfl
    | succ k =>
      rw [Function.iterate_succ_apply']
      rfl
  rw [cat, List.flatMap_cons, List.flatMap_cons, hflat]
  split
  · rename_i hempty
    rw [hempty]
    rfl
  · rename_i hbefore
    simp [flatten, hbefore, ofParts]

/-- The text in front is printed, and the indentation entered. -/
theorem steps_before (before : String) (k : Nat) (words : List String) : State.Steps options
    (.initial (cat [.text before, Doc.indent^[k] (.fill (wordParts words))]).markBreaks)
    ⟨[⟨k, .broken, .fill (wordParts words)⟩], [], before.toList.reverse, before.length, false⟩ := by
  have hindents (printed : List Char) (column : Nat) : State.Steps options
      ⟨[⟨0, .broken, Doc.indent^[k] (.fill (wordParts words))⟩], [], printed, column, false⟩
      ⟨[⟨k, .broken, .fill (wordParts words)⟩], [], printed, column, false⟩ := by
    simpa using steps_indents k 0 .broken _ ⟨[], [], printed, column, false⟩
  have hmarks : (Doc.indent^[k] (.fill (wordParts words))).markBreaks =
      Doc.indent^[k] (.fill (wordParts words)) := by
    rw [markBreaks_indents, markBreaks, markBreaksAll_wordParts]
  rw [cat_indents]
  split
  · rename_i hempty
    rw [hempty, hmarks]
    exact hindents [] 0
  · rw [markBreaks, markBreaksAll, markBreaksAll, markBreaksAll, hmarks]
    refine .head rfl (.head rfl ?_)
    simpa [State.print, State.initial] using hindents before.toList.reverse before.length

/-- Filling is greedy: words with possible breaks between them, printed behind a text and
inside some indentation, are put on lines as greedy line filling puts them. -/
theorem render_words (options : Options) (k : Nat) (before : String) {words : List String}
    (hwords : ∀ w ∈ words, w ≠ "" ∧ ∀ c ∈ w.toList, Text.isPadding c = false) :
    render? options (cat [.text before,
        Doc.indent^[k] (.fill (interleave space (words.map .text)))]) =
      some (greedyFill options.printWidth (k * options.tabWidth) before words) := by
  obtain ⟨column, hfill⟩ : ∃ column, State.Steps options
      ⟨[⟨k, .broken, .fill (wordParts words)⟩], [], before.toList.reverse, before.length, false⟩
      ⟨[], [], (greedyFill options.printWidth (k * options.tabWidth) before
        words).toList.reverse, column, false⟩ := by
    cases words with
    | nil => exact ⟨before.length, .single rfl⟩
    | cons w ws =>
      obtain ⟨column, hsteps⟩ := exists_steps_words k .broken false w ws hwords
        before.toList.reverse before.length
      exact ⟨column, by simpa [greedyFill] using hsteps⟩
  have hrun := State.Steps.run ((steps_before before k words).trans hfill) rfl rfl (Nat.le_refl _)
  rw [← wordParts, render?, hrun]
  simp

/-- A line of ten columns, filled behind a text that takes three of them: the second word ends
in the last column, the third begins a new line and runs over it, and so the fourth begins
another one. -/
theorem render_words_longWord :
    (∀ w ∈ ["ab", "cdef", "abcdefghijk", "x"], w ≠ "" ∧
      ∀ c ∈ w.toList, Text.isPadding c = false) ∧
    render? { printWidth := 10, tabWidth := 2 } (cat [.text "= (",
        Doc.indent^[1] (.fill (interleave space
          (["ab", "cdef", "abcdefghijk", "x"].map .text)))]) =
      some "= (ab cdef\n  abcdefghijk\n  x" := by
  have hwords : ∀ w ∈ ["ab", "cdef", "abcdefghijk", "x"], w ≠ "" ∧
      ∀ c ∈ w.toList, Text.isPadding c = false := by simp [Text.isPadding]
  exact ⟨hwords, render_words { printWidth := 10, tabWidth := 2 } 1 "= (" hwords⟩

end JavaFormat.Doc
