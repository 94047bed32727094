import JavaFormat.Text.Quoted
import Mathlib.Algebra.Group.Nat.Defs
import Mathlib.Tactic.SplitIfs

/-!
# Quoted texts read back

What stands between quotes can be read one character at a time: a backslash says how many
characters belong to it, and everything else stands for itself. Neither a character nor a
quoted text can therefore be read in two ways, whatever follows it.
-/

namespace JavaFormat.Text

/-! ## Numbers in hexadecimal digits -/

/-- The value of a hexadecimal digit in lower case. -/
def digitValue (c : Char) : Nat := if c.toNat < 58 then c.toNat - 48 else c.toNat - 87

/-- The number that a run of hexadecimal digits stands for. -/
def hexValue (cs : List Char) : Nat := cs.foldl (fun n c => 16 * n + digitValue c) 0

/-- A hexadecimal digit is read back. -/
theorem digitValue_digitChar : ∀ n < 16, digitValue (Nat.digitChar n) = n := by decide

/-- A number that the width has room for is read back from its digits. -/
theorem hexValue_hexDigits {width n : Nat} (h : n < 16 ^ width) :
    hexValue (hexDigits width n) = n := by
  induction width generalizing n with
  | zero =>
    rw [Nat.pow_zero] at h
    rw [hexDigits, Nat.lt_one_iff.mp h]
    rfl
  | succ width ih =>
    have hfront : hexValue (hexDigits width (n / 16)) = n / 16 := ih (by omega)
    have hlast := digitValue_digitChar (n % 16) (by omega)
    rw [hexValue] at hfront
    rw [hexDigits, hexValue, List.foldl_append, hfront, List.foldl_cons, List.foldl_nil, hlast]
    omega

/-! ## Reading -/

/-- Read a character of which a given number of digits comes next. -/
def readCodePoint (width : Nat) (cs : List Char) : Char × List Char :=
  (Char.ofNat (hexValue (cs.take width)), cs.drop width)

/-- Read what comes behind a backslash, with what follows it. -/
def readEscaped? : List Char → Option (Char × List Char)
  | [] => none
  | 'n' :: rest => some ('\n', rest)
  | 'r' :: rest => some ('\r', rest)
  | 't' :: rest => some ('\t', rest)
  | 'x' :: rest => some (readCodePoint 2 rest)
  | 'u' :: rest => some (readCodePoint 4 rest)
  | 'U' :: rest => some (readCodePoint 8 rest)
  | c :: rest => some (c, rest)

/-- Read the next character between quotes, with what follows it. -/
def readQuoted? : List Char → Option (Char × List Char)
  | [] => none
  | c :: rest => if c = '\\' then readEscaped? rest else some (c, rest)

/-- The digits of a code point are read back, if there are enough of them. -/
theorem readCodePoint_hexDigits {width : Nat} {c : Char} (h : c.toNat < 16 ^ width)
    (rest : List Char) : readCodePoint width (hexDigits width c.toNat ++ rest) = (c, rest) := by
  have hlength := length_hexDigits width c.toNat
  rw [readCodePoint, List.take_left' hlength, List.drop_left' hlength, hexValue_hexDigits h,
    Char.ofNat_toNat]

/-- An escaped code point is read back. -/
theorem readQuoted?_escapeCodePoint (c : Char) (rest : List Char) :
    readQuoted? (escapeCodePoint c.toNat ++ rest) = some (c, rest) := by
  unfold escapeCodePoint
  split
  · exact congrArg some (@readCodePoint_hexDigits 2 c (by omega) rest)
  · split
    · exact congrArg some (@readCodePoint_hexDigits 4 c (by omega) rest)
    · exact congrArg some (@readCodePoint_hexDigits 8 c c.val.toNat_lt rest)

/-- What stands for a character begins with a backslash, unless it is the character. -/
theorem quoteChar_cases (mark c : Char) :
    (∃ code, quoteChar mark c = '\\' :: code) ∨ (quoteChar mark c = [c] ∧ c ≠ mark) := by
  unfold quoteChar
  split_ifs with h hfeed hreturn htab hprintable
  · exact .inl ⟨_, rfl⟩
  · exact .inl ⟨_, rfl⟩
  · exact .inl ⟨_, rfl⟩
  · exact .inl ⟨_, rfl⟩
  · refine .inr ⟨rfl, ?_⟩
    rintro rfl
    simp at h
  · unfold escapeCodePoint
    split_ifs <;> exact .inl ⟨_, rfl⟩

section Mark

variable {mark : Char} (hmark : mark = '\'' ∨ mark = '"')
include hmark

/-- A character between quotes is read back. -/
theorem readQuoted?_quoteChar (c : Char) (rest : List Char) :
    readQuoted? (quoteChar mark c ++ rest) = some (c, rest) := by
  unfold quoteChar
  split
  · rename_i h
    rw [Bool.or_eq_true, beq_iff_eq, beq_iff_eq] at h
    rcases h with rfl | rfl
    · rcases hmark with rfl | rfl <;> rfl
    · rfl
  · rename_i h
    have hc : c ≠ '\\' := by
      rintro rfl
      simp at h
    split_ifs with hfeed hreturn htab hprintable
    · rw [beq_iff_eq.mp hfeed]
      rfl
    · rw [beq_iff_eq.mp hreturn]
      rfl
    · rw [beq_iff_eq.mp htab]
      rfl
    · simp [readQuoted?, hc]
    · exact readQuoted?_escapeCodePoint c rest

/-- What stands for a character does not begin with the quote. -/
theorem quoteChar_append_ne (c : Char) (rest more : List Char) :
    quoteChar mark c ++ rest ≠ mark :: more := by
  have hslash : '\\' ≠ mark := by
    rcases hmark with rfl | rfl <;> decide
  intro h
  rcases quoteChar_cases mark c with ⟨code, hcode⟩ | ⟨hself, hc⟩
  · rw [hcode, List.cons_append, List.cons.injEq] at h
    exact hslash h.1
  · rw [hself, List.cons_append, List.cons.injEq] at h
    exact hc h.1

/-- Characters between quotes and what follows the closing quote can be told from each other. -/
theorem flatMap_quoteChar_append_inj {cs ds s t : List Char}
    (h : cs.flatMap (quoteChar mark) ++ mark :: s = ds.flatMap (quoteChar mark) ++ mark :: t) :
    cs = ds ∧ s = t := by
  induction cs generalizing ds with
  | nil =>
    cases ds with
    | nil => exact ⟨rfl, List.tail_eq_of_cons_eq h⟩
    | cons d ds =>
      rw [List.flatMap_cons, List.append_assoc] at h
      exact (quoteChar_append_ne hmark d _ s h.symm).elim
  | cons c cs ih =>
    rw [List.flatMap_cons, List.append_assoc] at h
    cases ds with
    | nil => exact (quoteChar_append_ne hmark c _ t h).elim
    | cons d ds =>
      rw [List.flatMap_cons, List.append_assoc] at h
      have hread := congrArg readQuoted? h
      rw [readQuoted?_quoteChar hmark, readQuoted?_quoteChar hmark, Option.some.injEq,
        Prod.mk.injEq] at hread
      obtain ⟨rfl, hrest⟩ := hread
      obtain ⟨rfl, rfl⟩ := ih hrest
      exact ⟨rfl, rfl⟩

end Mark

/-- The quotation mark is a single or a double one. -/
theorem quoteMark_eq (cs : List Char) : quoteMark cs = '\'' ∨ quoteMark cs = '"' := by
  unfold quoteMark
  split
  · exact .inr rfl
  · exact .inl rfl

/-- A quoted text is its characters, each quoted, between two marks. -/
theorem toList_quote (s : String) : (quote s).toList =
    quoteMark s.toList :: s.toList.flatMap (quoteChar (quoteMark s.toList)) ++
      [quoteMark s.toList] := by
  simp [quote]

/-- A quoted text begins with a quote. -/
theorem exists_quote_cons (s : String) :
    ∃ mark rest, (quote s).toList = mark :: rest ∧ (mark = '\'' ∨ mark = '"') :=
  ⟨_, _, toList_quote s, quoteMark_eq s.toList⟩

/-- A quoted text and what follows it can be told from each other. -/
theorem quote_append_inj {s t : String} {a b : List Char}
    (h : (quote s).toList ++ a = (quote t).toList ++ b) : s = t ∧ a = b := by
  simp only [toList_quote, List.cons_append, List.append_assoc, List.nil_append,
    List.cons.injEq] at h
  obtain ⟨hmark, hrest⟩ := h
  rw [← hmark] at hrest
  obtain ⟨hs, rfl⟩ := flatMap_quoteChar_append_inj (quoteMark_eq _) hrest
  exact ⟨String.toList_inj.mp hs, rfl⟩

end JavaFormat.Text
