import JavaFormat.Text.Blank
import JavaFormat.Text.Lines
import Mathlib.Data.List.DropRight

/-!
# Stripped lines

A trimmed text is what is left of a text without the white space around it, and it is the only
text of that kind (`trim_eq_iff`). Trimming again takes nothing away (`trim_trim`), and lines
that are put together and cut apart again are the same lines (`lines_unlines`).
-/

namespace JavaFormat.Text

section Strip

variable {α : Type} {p : α → Bool} {l b : List α}

/-- Elements at the end that satisfy the predicate make no difference. -/
theorem dropEndWhile_append (hb : ∀ x ∈ b, p x = true) :
    dropEndWhile p (l ++ b) = dropEndWhile p l := by
  rw [dropEndWhile, List.reverse_append, List.dropWhile_append_of_pos, dropEndWhile]
  simpa using hb

/-- What is left when both ends have been stripped begins with no more of what is stripped. -/
theorem dropWhile_dropEndWhile_dropWhile :
    (dropEndWhile p (l.dropWhile p)).dropWhile p = dropEndWhile p (l.dropWhile p) := by
  have hhead := List.head?_dropWhile_not p l
  obtain ⟨more, hmore⟩ : dropEndWhile p (l.dropWhile p) <+: l.dropWhile p :=
    List.rdropWhile_prefix p _
  cases hkept : dropEndWhile p (l.dropWhile p) with
  | nil => rfl
  | cons x xs =>
    rw [hkept, List.cons_append] at hmore
    rw [← hmore] at hhead
    exact List.dropWhile_cons_of_neg (by simpa using hhead)

/-- Stripping both ends of a list that was stripped at its end. -/
theorem dropEndWhile_dropWhile_dropEndWhile :
    dropEndWhile p ((dropEndWhile p l).dropWhile p) = dropEndWhile p (l.dropWhile p) := by
  have hsplit : dropEndWhile p l ++ l.rtakeWhile p = l := List.rdropWhile_append_rtakeWhile
  have hend : ∀ x ∈ l.rtakeWhile p, p x = true := fun x hx => List.mem_rtakeWhile_imp hx
  generalize dropEndWhile p l = kept at hsplit ⊢
  rw [← hsplit, List.dropWhile_append]
  split
  · rename_i hnone
    have hend : (l.rtakeWhile p).dropWhile p = [] := List.dropWhile_eq_nil_iff.mpr hend
    rw [List.isEmpty_iff.mp hnone, hend]
  · rw [dropEndWhile_append hend]

/-- What is left begins with nothing that is stripped. -/
theorem head?_strip {x : α} (hx : (dropEndWhile p (l.dropWhile p)).head? = some x) :
    p x = false := by
  have hhead := List.head?_dropWhile_not p (dropEndWhile p (l.dropWhile p))
  rw [dropWhile_dropEndWhile_dropWhile, hx] at hhead
  simpa using hhead

/-- What is left ends with nothing that is stripped. -/
theorem getLast?_dropEndWhile {x : α} (hx : (dropEndWhile p l).getLast? = some x) :
    p x = false := by
  have hhead := List.head?_dropWhile_not p l.reverse
  rw [dropEndWhile, List.getLast?_reverse] at hx
  rw [hx] at hhead
  simpa using hhead

/-- Nothing is stripped of a list that begins and ends with something else, and all of what
is put around it is. -/
theorem strip_append {a : List α} (ha : ∀ x ∈ a, p x = true) (hb : ∀ x ∈ b, p x = true)
    (hfront : ∀ x, l.head? = some x → p x = false)
    (hback : ∀ x, l.getLast? = some x → p x = false) :
    dropEndWhile p ((a ++ (l ++ b)).dropWhile p) = l := by
  have hkept : dropEndWhile p l = l := by
    rw [dropEndWhile]
    cases hrev : l.reverse with
    | nil => simpa using congrArg List.reverse hrev
    | cons x xs =>
      have hlast : l.getLast? = some x := by rw [← List.head?_reverse, hrev, List.head?_cons]
      rw [List.dropWhile_cons_of_neg (by simp [hback x hlast]), ← hrev, List.reverse_reverse]
  rw [List.dropWhile_append_of_pos ha]
  cases l with
  | nil =>
    rw [List.nil_append, List.dropWhile_eq_nil_iff.mpr hb]
    rfl
  | cons x xs =>
    rw [List.cons_append, List.dropWhile_cons_of_neg (by simp [hfront x rfl]), ← List.cons_append,
      dropEndWhile_append hb, hkept]

/-- What does not occur in a list is not left of it. -/
theorem not_mem_dropEndWhile {x : α} (h : x ∉ l) :
    x ∉ dropEndWhile p l := by
  intro hmem
  rw [dropEndWhile, List.mem_reverse] at hmem
  exact h (List.mem_reverse.mp ((List.dropWhile_sublist p).mem hmem))

end Strip

/-- Trimming takes what trimming the end has left. -/
theorem trim_trimEnd (s : String) : trim (trimEnd s) = trim s := by
  rw [trim, trimEnd, String.toList_ofList, dropEndWhile_dropWhile_dropEndWhile, trim]

/-- A text that was trimmed at its end stays as it is. -/
theorem trimEnd_trimEnd (s : String) : trimEnd (trimEnd s) = trimEnd s := by
  have htwice : dropEndWhile isBlank (dropEndWhile isBlank s.toList) =
      dropEndWhile isBlank s.toList := List.rdropWhile_idempotent isBlank s.toList
  rw [trimEnd, trimEnd, String.toList_ofList, htwice]

/-- A trimmed text begins with no blank. -/
theorem trimStart_trim (s : String) : trimStart (trim s) = trim s := by
  rw [trimStart, trim, String.toList_ofList, dropWhile_dropEndWhile_dropWhile]

/-- Both ends can be trimmed one after the other. -/
theorem trim_eq (s : String) : trim s = trimEnd (trimStart s) := by
  rw [trim, trimEnd, trimStart, String.toList_ofList]

/-- A trimmed text stays as it is. -/
theorem trim_trim (s : String) : trim (trim s) = trim s := by
  rw [trim_eq (trim s), trimStart_trim, trim_eq s, trimEnd_trimEnd]

/-- Blanks in front are stripped with the others. -/
theorem trimStart_append {b : String} (hb : ∀ c ∈ b.toList, isBlank c = true) (s : String) :
    trimStart (b ++ s) = trimStart s := by
  rw [trimStart, String.toList_append, List.dropWhile_append_of_pos hb, trimStart]

/-- A space in front is a blank. -/
theorem trimStart_space (s : String) : trimStart (" " ++ s) = trimStart s :=
  trimStart_append (by simp; decide) s

/-- A line that begins with something visible behind its blanks begins with it when it has been
stripped. -/
theorem head?_trim {s : String} {c : Char} (hs : (trimStart s).toList.head? = some c)
    (hc : isBlank c = false) : (trim s).toList.head? = some c := by
  rw [trimStart, String.toList_ofList] at hs
  rw [trim, String.toList_ofList]
  obtain ⟨more, hmore⟩ : dropEndWhile isBlank (s.toList.dropWhile isBlank) <+:
      s.toList.dropWhile isBlank := List.rdropWhile_prefix isBlank _
  cases hkept : dropEndWhile isBlank (s.toList.dropWhile isBlank) with
  | nil =>
    have hall := (List.rdropWhile_eq_nil_iff (p := isBlank)).mp hkept c (List.mem_of_head? hs)
    rw [hc] at hall
    cases hall
  | cons x xs =>
    rw [hkept] at hmore
    rw [← hmore] at hs
    exact hs

/-- A text is what is left of it without the blanks around it, between those blanks. -/
theorem toList_eq_trim (s : String) : s.toList = s.toList.takeWhile isBlank ++
    ((trim s).toList ++ (s.toList.dropWhile isBlank).rtakeWhile isBlank) := by
  have hcore : (trim s).toList = dropEndWhile isBlank (s.toList.dropWhile isBlank) :=
    String.toList_ofList
  have hback : dropEndWhile isBlank (s.toList.dropWhile isBlank) ++
      (s.toList.dropWhile isBlank).rtakeWhile isBlank = s.toList.dropWhile isBlank :=
    List.rdropWhile_append_rtakeWhile
  rw [hcore, hback, List.takeWhile_append_dropWhile]

/-- A text is what is left of another one without the white space around it. -/
structure StripsTo (s core : String) : Prop where
  around : ∃ before behind : List Char, s.toList = before ++ (core.toList ++ behind) ∧
    (∀ c ∈ before, isBlank c = true) ∧ ∀ c ∈ behind, isBlank c = true
  /-- It begins with no white space. -/
  front : ∀ c, core.toList.head? = some c → isBlank c = false
  /-- It ends with no white space. -/
  back : ∀ c, core.toList.getLast? = some c → isBlank c = false

/-- Trimming leaves what is inside the white space around a text. -/
theorem trim_eq_iff {s core : String} : trim s = core ↔ StripsTo s core := by
  constructor
  · rintro rfl
    have hcore : (trim s).toList = dropEndWhile isBlank (s.toList.dropWhile isBlank) :=
      String.toList_ofList
    exact ⟨⟨_, _, toList_eq_trim s, fun c hc => List.mem_takeWhile_imp hc,
      fun c hc => List.mem_rtakeWhile_imp hc⟩,
      fun c hc => head?_strip (hcore ▸ hc), fun c hc => getLast?_dropEndWhile (hcore ▸ hc)⟩
  · rintro ⟨⟨before, behind, hs, hbefore, hbehind⟩, hfront, hback⟩
    rw [trim, hs, strip_append hbefore hbehind hfront hback, String.ofList_toList]

/-! ## Lines -/

/-- No line feed is left on a line. -/
theorem not_mem_of_mem_lines {s l : String} (h : l ∈ lines s) : '\n' ∉ l.toList := by
  obtain ⟨cs, hcs, rfl⟩ := List.mem_map.mp h
  rw [String.toList_ofList]
  have hall : ∀ xs : List Char, ∀ l ∈ xs.splitOn '\n', '\n' ∉ l := by
    intro xs
    induction xs with
    | nil => simp
    | cons x xs ih =>
      obtain ⟨m, ms, hsplit⟩ := List.exists_cons_of_ne_nil (List.splitOn_ne_nil '\n' xs)
      rw [List.splitOn_cons_eq_if_modifyHead]
      rw [hsplit] at ih ⊢
      obtain ⟨hm, hms⟩ := List.forall_mem_cons.mp ih
      by_cases hx : x = '\n'
      · simpa [hx] using And.intro hm hms
      · have hne : (x == '\n') = false := by simpa using hx
        simpa [hne, hm, Ne.symm hx] using hms
  exact hall _ cs hcs

/-- A text has a line. -/
theorem lines_ne_nil (s : String) : lines s ≠ [] := by
  simp [lines, List.splitOn_ne_nil]

/-- Lines without a line feed in them are cut apart as they were put together. -/
theorem lines_unlines {ls : List String} (hne : ls ≠ []) (h : ∀ l ∈ ls, '\n' ∉ l.toList) :
    lines (unlines ls) = ls := by
  have hsingle : ∀ cs ∈ ls.map String.toList, '\n' ∉ cs := by
    intro cs hcs
    obtain ⟨l, hl, rfl⟩ := List.mem_map.mp hcs
    exact h l hl
  rw [lines, unlines, String.toList_ofList,
    List.splitOn_intercalate _ hsingle (by simpa using hne), List.map_map]
  simp [Function.comp_def]

/-- Texts are put together from the same lines just when the lines are the same. -/
theorem unlines_inj {ls ms : List String} (hls : ls ≠ []) (hms : ms ≠ [])
    (hl : ∀ l ∈ ls, '\n' ∉ l.toList) (hm : ∀ m ∈ ms, '\n' ∉ m.toList) :
    unlines ls = unlines ms ↔ ls = ms := by
  refine ⟨fun h => ?_, fun h => h ▸ rfl⟩
  rw [← lines_unlines hls hl, h, lines_unlines hms hm]

/-- No line feed is left on a line that is trimmed. -/
theorem not_mem_of_mem_trimmedLines {s l : String} (h : l ∈ (lines s).map trim) :
    '\n' ∉ l.toList := by
  obtain ⟨line, hline, rfl⟩ := List.mem_map.mp h
  rw [trim, String.toList_ofList]
  exact not_mem_dropEndWhile fun hmem =>
    not_mem_of_mem_lines hline ((List.dropWhile_sublist _).mem hmem)

end JavaFormat.Text
