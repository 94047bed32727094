import JavaFormat.Proofs.Text.Utf8
import JavaFormat.Source
import Mathlib.Data.List.TakeWhile

/-!
# Blank lines above a position

Whether there is a blank line above a position is asked of the lines of a source. Behind bytes
that end in no white space and a gap of spaces and line feeds the answer is a number: there is
one just if the gap has two line feeds or more (`blankAbove_position_iff`).
-/

namespace JavaFormat

namespace Source

/-- Whether the source has a blank line above a position at the start of a line. -/
def blankAbove (source : Source) (p : Position) : Bool :=
  source.startsLine p && decide (0 < p.line) && source.isBlankLine (p.line - 1)

/-- The bytes behind the last line feed. -/
def lastLine (bytes : List UInt8) : List UInt8 :=
  (bytes.reverse.takeWhile (· != lineFeed)).reverse

/-! ## The last line -/

section LastLine

variable {bytes tail : List UInt8}

/-- Bytes that are no line feeds make the last line longer. -/
theorem lastLine_append (bytes : List UInt8) (h : lineFeed ∉ tail) :
    lastLine (bytes ++ tail) = lastLine bytes ++ tail := by
  have htail : ∀ b ∈ tail.reverse, (b != lineFeed) = true := by
    intro b hb
    rw [bne_iff_ne]
    rintro rfl
    exact h (List.mem_reverse.mp hb)
  rw [lastLine, List.reverse_append, List.takeWhile_append_of_pos htail, List.reverse_append,
    List.reverse_reverse, lastLine]

/-- A line feed begins a line. -/
theorem lastLine_append_cons (h : lineFeed ∉ tail) :
    lastLine (bytes ++ lineFeed :: tail) = tail := by
  have hfeed : lastLine (bytes ++ [lineFeed]) = [] := by simp [lastLine]
  rw [List.append_cons, lastLine_append _ h, hfeed, List.nil_append]

/-- Without a line feed everything is the last line. -/
theorem lastLine_of_not_mem (h : lineFeed ∉ tail) : lastLine tail = tail :=
  lastLine_append [] h

/-- Bytes with a line feed in them, cut at the last one. -/
theorem exists_last_lineFeed (h : lineFeed ∈ bytes) :
    ∃ front, bytes = front ++ lineFeed :: lastLine bytes ∧ lineFeed ∉ lastLine bytes := by
  obtain ⟨tail, front, hreverse, htail⟩ := List.eq_append_cons_of_mem (List.mem_reverse.mpr h)
  have hbytes : bytes = front.reverse ++ lineFeed :: tail.reverse := by
    rw [← bytes.reverse_reverse, hreverse]
    simp
  have hnone : lineFeed ∉ tail.reverse := by simpa using htail
  rw [hbytes, lastLine_append_cons hnone]
  exact ⟨_, rfl, hnone⟩

/-- A byte in front of a line feed is not on the last line. -/
theorem lastLine_cons_of_mem {b : UInt8} (h : lineFeed ∈ bytes) :
    lastLine (b :: bytes) = lastLine bytes := by
  obtain ⟨front, hfront, hnone⟩ := exists_last_lineFeed h
  rw [hfront, ← List.cons_append, lastLine_append_cons hnone, lastLine_append_cons hnone]

/-- A line feed in front is not on the last line. -/
theorem lastLine_cons_lineFeed : lastLine (lineFeed :: bytes) = lastLine bytes := by
  by_cases hmem : lineFeed ∈ bytes
  · exact lastLine_cons_of_mem hmem
  · rw [lastLine_of_not_mem hmem, ← List.nil_append (lineFeed :: bytes), lastLine_append_cons hmem]

end LastLine

/-! ## Lines by number -/

/-- The line with as many lines above it as there are line feeds in front of an offset goes
around that offset. -/
theorem getElem?_splitOn_append (before after : List UInt8) :
    ((before ++ after).splitOn lineFeed)[before.count lineFeed]? =
      some (lastLine before ++ after.takeWhile (· != lineFeed)) := by
  induction before with
  | nil =>
    induction after with
    | nil => rfl
    | cons b after ih =>
      rw [List.nil_append] at ih ⊢
      rw [List.splitOn_cons_eq_if_modifyHead]
      by_cases hb : b = lineFeed
      · simp [hb, lastLine]
      · simp only [beq_iff_eq, hb, if_false, List.count_nil] at ih ⊢
        rw [List.getElem?_modifyHead_zero, ih]
        simp [hb, lastLine]
  | cons b before ih =>
    rw [List.cons_append, List.splitOn_cons_eq_if_modifyHead]
    by_cases hb : b = lineFeed
    · simpa [hb, lastLine_cons_lineFeed] using ih
    · have hcount : (b :: before).count lineFeed = before.count lineFeed := by simp [hb]
      rw [hcount, if_neg (by simpa using hb)]
      by_cases hmem : lineFeed ∈ before
      · obtain ⟨n, hn⟩ := Nat.exists_eq_succ_of_ne_zero (Nat.ne_of_gt (List.count_pos_iff.mpr hmem))
        rw [lastLine_cons_of_mem hmem, ← ih, hn, List.getElem?_modifyHead_succ]
      · have hnone : lineFeed ∉ b :: before := by
          rw [List.mem_cons, not_or]
          exact ⟨Ne.symm hb, hmem⟩
        rw [lastLine_of_not_mem hnone]
        rw [lastLine_of_not_mem hmem, List.count_eq_zero.mpr hmem] at ih
        rw [List.count_eq_zero.mpr hmem, List.getElem?_modifyHead_zero, ih]
        rfl

section Above

variable {before after gap : List UInt8}

/-- A position is on the line that its offset is on. -/
theorem line_position {source : Source} (h : source.bytes = before ++ after) :
    (source.position before.length).line = before.count lineFeed := by
  simp only [position, h, List.take_left]

/-- A position starts a line if the bytes in front of it on its line are white space. -/
theorem startsLine_position (before after : List UInt8) :
    startsLine ⟨before ++ after⟩ (position ⟨before ++ after⟩ before.length) =
      isBlankBytes (lastLine before) := by
  have hcolumn : (before.reverse.takeWhile (· != lineFeed)).length = (lastLine before).length := by
    rw [lastLine, List.length_reverse]
  simp only [startsLine, startsLine?, lines, position, List.take_left, getElem?_splitOn_append,
    Option.map_some, Option.getD_some, hcolumn]

/-- The line above a position is the one in front of the last line feed. -/
theorem isBlankLine_above {tail : List UInt8} (h : lineFeed ∉ tail) (before after : List UInt8) :
    isBlankLine ⟨before ++ lineFeed :: tail ++ after⟩
      ((before ++ lineFeed :: tail).count lineFeed - 1) = isBlankBytes (lastLine before) := by
  have hcount : (before ++ lineFeed :: tail).count lineFeed - 1 = before.count lineFeed := by
    simp [List.count_eq_zero.mpr h]
  have hline := getElem?_splitOn_append before (lineFeed :: (tail ++ after))
  rw [List.takeWhile_cons_of_neg (by simp), List.append_nil] at hline
  rw [hcount, isBlankLine, lines, List.append_assoc, List.cons_append]
  simp only [hline]

/-- White space of a gap between leaves: a space or a line feed. -/
def isGapByte (b : UInt8) : Bool := b == 32 || b == lineFeed

/-- A gap is blank. -/
theorem isBlankBytes_of_gap (h : ∀ b ∈ gap, isGapByte b = true) : isBlankBytes gap = true := by
  rw [isBlankBytes, List.all_eq_true]
  intro b hb
  have hbyte := h b hb
  rw [isGapByte, Bool.or_eq_true, beq_iff_eq, beq_iff_eq] at hbyte
  rcases hbyte with rfl | rfl <;> decide

/-- A line that goes on behind something else than white space is not blank. -/
theorem isBlankBytes_lastLine_append {b : UInt8} (hb : Text.isBlankByte b = false)
    {tail : List UInt8} (h : lineFeed ∉ tail) :
    isBlankBytes (lastLine (before ++ [b] ++ tail)) = false := by
  have hfeed : lineFeed ∉ [b] := by
    rw [List.mem_singleton]
    rintro rfl
    exact absurd hb (by decide)
  rw [lastLine_append _ h, lastLine_append _ hfeed, isBlankBytes, List.all_append, List.all_append,
    List.all_cons, hb]
  simp

/-- Behind something else than white space, there is a blank line above a position if there are
two line feeds or more in between. -/
theorem blankAbove_position_iff {b : UInt8} (hb : Text.isBlankByte b = false)
    (hgap : ∀ b ∈ gap, isGapByte b = true) (before after : List UInt8) :
    let source : Source := ⟨before ++ [b] ++ gap ++ after⟩
    source.blankAbove (source.position (before ++ [b] ++ gap).length) = true ↔
      2 ≤ gap.count lineFeed := by
  intro source
  have hbytes : source.bytes = before ++ [b] ++ gap ++ after := rfl
  have hstarts := startsLine_position (before ++ [b] ++ gap) after
  rw [blankAbove, line_position hbytes, hstarts]
  by_cases hmem : lineFeed ∈ gap
  · obtain ⟨front, hfront, hnone⟩ := exists_last_lineFeed hmem
    generalize lastLine gap = tail at hfront hnone
    subst hfront
    obtain ⟨hblank, htail⟩ := List.forall_mem_append.mp hgap
    have hpositive : 0 < (before ++ [b] ++ (front ++ lineFeed :: tail)).count lineFeed :=
      List.count_pos_iff.mpr (by simp)
    have habove : source.isBlankLine
        ((before ++ [b] ++ (front ++ lineFeed :: tail)).count lineFeed - 1) =
          isBlankBytes (lastLine (before ++ [b] ++ front)) := by
      have habove := isBlankLine_above hnone (before ++ [b] ++ front) after
      simpa only [source, List.append_assoc] using habove
    have hlast : lastLine (before ++ [b] ++ (front ++ lineFeed :: tail)) = tail := by
      rw [← List.append_assoc, lastLine_append_cons hnone]
    have htail := isBlankBytes_of_gap fun c hc => htail c (List.mem_cons_of_mem _ hc)
    have hcount : (front ++ lineFeed :: tail).count lineFeed = front.count lineFeed + 1 := by
      simp [List.count_eq_zero.mpr hnone]
    rw [hlast, htail, habove, hcount, decide_eq_true hpositive, Bool.true_and, Bool.true_and]
    by_cases hfeed : lineFeed ∈ front
    · obtain ⟨left, hleft, hright⟩ := exists_last_lineFeed hfeed
      have hone := List.count_pos_iff.mpr hfeed
      have hlast : lastLine (before ++ [b] ++ front) = lastLine front := by
        rw [hleft, ← List.append_assoc, lastLine_append_cons hright, lastLine_append_cons hright]
      have hinside : ∀ c ∈ lastLine front, isGapByte c = true := by
        intro c hc
        refine hblank c ?_
        rw [hleft]
        simp [hc]
      rw [hlast, isBlankBytes_of_gap hinside]
      simp only [true_iff]
      omega
    · rw [isBlankBytes_lastLine_append hb hfeed, List.count_eq_zero.mpr hfeed]
      simp
  · rw [isBlankBytes_lastLine_append hb hmem, List.count_eq_zero.mpr hmem]
    simp

end Above

end Source

/-! ## Bytes of characters -/

namespace Text.Utf8

/-- The blank bytes are the space and those from tab to carriage return. -/
theorem isBlankByte_iff {b : UInt8} :
    isBlankByte b = true ↔ (9 ≤ b.toNat ∧ b.toNat ≤ 13) ∨ b.toNat = 32 := by
  rw [isBlankByte, Bool.or_eq_true, Bool.and_eq_true, decide_eq_true_eq, decide_eq_true_eq,
    UInt8.le_iff_toNat_le, UInt8.le_iff_toNat_le, beq_iff_eq, ← UInt8.toNat_inj]
  rfl

/-- The last byte of a character is a blank only if the character is one. -/
theorem exists_last_byte {c : Char} (h : isBlank c = false) :
    ∃ front b, String.utf8EncodeChar c = front ++ [b] ∧ isBlankByte b = false := by
  have hbytes := utf8EncodeChar_ofNat (n := c.toNat) c.valid
  have hcontinuing : ∀ n : Nat, isBlankByte (UInt8.ofNat (n % 64 + 128)) = false := by
    intro n
    rw [← Bool.not_eq_true, isBlankByte_iff, UInt8.toNat_ofNat']
    omega
  rw [Char.ofNat_toNat] at hbytes
  rw [hbytes]
  split
  · refine ⟨[], _, rfl, ?_⟩
    have hplain : ¬((9 ≤ c.toNat ∧ c.toNat ≤ 13) ∨ c.toNat = 32) := by
      intro hblank
      rw [isBlank] at h
      rcases hblank with ⟨hlow, hhigh⟩ | hspace
      · simp [hlow, hhigh] at h
      · simp [hspace] at h
    rw [← Bool.not_eq_true, isBlankByte_iff, UInt8.toNat_ofNat']
    omega
  · split
    · exact ⟨[_], _, rfl, hcontinuing _⟩
    · split
      · exact ⟨[_, _], _, rfl, hcontinuing _⟩
      · exact ⟨[_, _, _], _, rfl, hcontinuing _⟩

end Text.Utf8

end JavaFormat
