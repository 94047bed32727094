import JavaFormat.Text.Utf8
import Mathlib.Data.List.Basic

/-!
# Encoding undoes decoding

Bytes that can be decoded are the bytes of their text. While they are read, a character
that has been begun is known by its first bytes: whatever continues them within the range
that is due makes up, with them, the bytes of the character that is come to.
-/

namespace JavaFormat.Text.Utf8

/-- The bytes of texts one behind the other. -/
theorem encode_append (s t : String) : encode (s ++ t) = encode s ++ encode t := by
  simp [encode]

/-- Texts with the same bytes are the same. -/
theorem encode_injective : Function.Injective encode := by
  intro s t h
  have hbytes : s.toList.utf8Encode = t.toList.utf8Encode := by
    rw [List.utf8Encode, List.utf8Encode, List.toByteArray_inj]
    exact h
  rw [String.utf8Encode_toList, String.utf8Encode_toList] at hbytes
  exact String.toByteArray_inj.mp hbytes

/-- The bytes of a character by its code point. -/
theorem utf8EncodeChar_ofNat {n : Nat} (h : n.isValidChar) :
    String.utf8EncodeChar (Char.ofNat n) =
      if n ≤ 0x7F then [UInt8.ofNat n]
      else if n ≤ 0x7FF then [UInt8.ofNat (n / 64 % 32 + 192), UInt8.ofNat (n % 64 + 128)]
      else if n ≤ 0xFFFF then
        [UInt8.ofNat (n / 4096 % 16 + 224), UInt8.ofNat (n / 64 % 64 + 128),
          UInt8.ofNat (n % 64 + 128)]
      else
        [UInt8.ofNat (n / 262144 % 8 + 240), UInt8.ofNat (n / 4096 % 64 + 128),
          UInt8.ofNat (n / 64 % 64 + 128), UInt8.ofNat (n % 64 + 128)] := by
  have hval : (Char.ofNat n).val.toNat = n := by
    rw [Char.ofNat, dif_pos h]
    rfl
  rw [String.utf8EncodeChar.eq_1, hval]

/-- A number is the one that a byte stands for. -/
theorem ofNat_eq {n : Nat} {b : UInt8} (h : n = b.toNat) : UInt8.ofNat n = b := by
  rw [h, UInt8.ofNat_toNat]

/-! ## A character that has been begun -/

/-- Some bytes begin a character and so many are due: whatever continues them, the first byte
between the given ones, they are in the end the bytes of the character that is come to. -/
def Continues (front : List UInt8) : Nat → Nat → UInt8 → UInt8 → Prop
  | 0, value, _, _ => String.utf8EncodeChar (Char.ofNat value) = front
  | due + 1, value, low, high => ∀ b : UInt8, low ≤ b → b ≤ high →
    Continues (front ++ [b]) due (value * 64 + (b.toNat - 0x80)) 0x80 0xBF

/-- What a begun character is known by. -/
structure Pending.Begins (p : Pending) (front : List UInt8) : Prop where
  due : 1 ≤ p.due
  continues : Continues front p.due p.value p.low p.high

/-- A byte alone is the byte of its character. -/
theorem utf8EncodeChar_of_whole {b : UInt8} {c : Char} (h : opening b = .whole c) :
    String.utf8EncodeChar c = [b] := by
  unfold opening at h
  dsimp only at h
  split at h
  · rename_i hlt
    obtain rfl : Char.ofNat b.toNat = c := by simpa using h
    rw [utf8EncodeChar_ofNat (.inl (by omega)), if_pos (by omega), UInt8.ofNat_toNat]
  · split_ifs at h

/-- A byte in front of one more. -/
theorem continues_one {b : UInt8} (hlow : 0xC2 ≤ b.toNat) (hhigh : b.toNat < 0xE0) :
    Continues [b] 1 (b.toNat - 0xC0) 0x80 0xBF := by
  intro b₁ h₁ h₁'
  rw [UInt8.le_iff_toNat_le] at h₁ h₁'
  simp only [UInt8.reduceToNat] at h₁ h₁'
  rw [Continues, utf8EncodeChar_ofNat (.inl (by omega)), if_neg (by omega), if_pos (by omega)]
  rw [ofNat_eq (b := b) (by omega), ofNat_eq (b := b₁) (by omega)]
  rfl

/-- A least byte that is greater behind one first byte. -/
theorem toNat_le_of_ite {n m : Nat} {x y b : UInt8} (hxy : y.toNat ≤ x.toNat)
    (h : (if n == m then x else y) ≤ b) :
    y.toNat ≤ b.toNat ∧ (n = m → x.toNat ≤ b.toNat) := by
  rw [UInt8.le_iff_toNat_le] at h
  split at h
  · exact ⟨Nat.le_trans hxy h, fun _ => h⟩
  · rename_i hne
    exact ⟨h, fun heq => absurd (beq_iff_eq.mpr heq) hne⟩

/-- A greatest byte that is less behind one first byte. -/
theorem toNat_ge_of_ite {n m : Nat} {x y b : UInt8} (hxy : x.toNat ≤ y.toNat)
    (h : b ≤ if n == m then x else y) :
    b.toNat ≤ y.toNat ∧ (n = m → b.toNat ≤ x.toNat) := by
  rw [UInt8.le_iff_toNat_le] at h
  split at h
  · exact ⟨Nat.le_trans h hxy, fun _ => h⟩
  · rename_i hne
    exact ⟨h, fun heq => absurd (beq_iff_eq.mpr heq) hne⟩

/-- A byte in front of two more. Overlong forms and surrogates are ruled out by the second. -/
theorem continues_two {b : UInt8} (hlow : 0xE0 ≤ b.toNat) (hhigh : b.toNat < 0xF0) :
    Continues [b] 2 (b.toNat - 0xE0) (if b.toNat == 0xE0 then 0xA0 else 0x80)
      (if b.toNat == 0xED then 0x9F else 0xBF) := by
  intro b₁ h₁ h₁' b₂ h₂ h₂'
  obtain ⟨hleast, hoverlong⟩ := toNat_le_of_ite (by decide) h₁
  obtain ⟨hgreatest, hsurrogate⟩ := toNat_ge_of_ite (by decide) h₁'
  rw [UInt8.le_iff_toNat_le] at h₂ h₂'
  simp only [UInt8.reduceToNat] at hleast hoverlong hgreatest hsurrogate h₂ h₂'
  rw [Continues, utf8EncodeChar_ofNat (by unfold Nat.isValidChar; omega), if_neg (by omega),
    if_neg (by omega), if_pos (by omega)]
  rw [ofNat_eq (b := b) (by omega), ofNat_eq (b := b₁) (by omega), ofNat_eq (b := b₂) (by omega)]
  rfl

/-- A byte in front of three more. Overlong forms and numbers too great are ruled out by the
second. -/
theorem continues_three {b : UInt8} (hlow : 0xF0 ≤ b.toNat) (hhigh : b.toNat < 0xF5) :
    Continues [b] 3 (b.toNat - 0xF0) (if b.toNat == 0xF0 then 0x90 else 0x80)
      (if b.toNat == 0xF4 then 0x8F else 0xBF) := by
  intro b₁ h₁ h₁' b₂ h₂ h₂' b₃ h₃ h₃'
  obtain ⟨hleast, hoverlong⟩ := toNat_le_of_ite (by decide) h₁
  obtain ⟨hgreatest, htooGreat⟩ := toNat_ge_of_ite (by decide) h₁'
  rw [UInt8.le_iff_toNat_le] at h₂ h₂' h₃ h₃'
  simp only [UInt8.reduceToNat] at hleast hoverlong hgreatest htooGreat h₂ h₂' h₃ h₃'
  rw [Continues, utf8EncodeChar_ofNat (by unfold Nat.isValidChar; omega), if_neg (by omega),
    if_neg (by omega), if_neg (by omega)]
  rw [ofNat_eq (b := b) (by omega), ofNat_eq (b := b₁) (by omega), ofNat_eq (b := b₂) (by omega),
    ofNat_eq (b := b₃) (by omega)]
  rfl

/-- The first byte of a longer character begins it. -/
theorem begins_of_lead {b : UInt8} {p : Pending} (h : opening b = .lead p) : p.Begins [b] := by
  unfold opening at h
  dsimp only at h
  split at h
  · cases h
  split at h
  · cases h
  rename_i hlow
  split at h
  · rename_i htwo
    obtain rfl := Opening.lead.inj h
    exact ⟨by simp, continues_one (by omega) htwo⟩
  split at h
  · rename_i htwo hthree
    obtain rfl := Opening.lead.inj h
    exact ⟨by simp, continues_two (by omega) hthree⟩
  split at h
  · rename_i hthree hfour
    obtain rfl := Opening.lead.inj h
    exact ⟨by simp, continues_three (by omega) hfour⟩
  · cases h

/-- The last byte that is due ends a character. -/
theorem Pending.Begins.utf8EncodeChar_extend {p : Pending} {front : List UInt8} {b : UInt8}
    (h : p.Begins front) (hlow : p.low ≤ b) (hhigh : b ≤ p.high) (hdue : p.due ≤ 1) :
    String.utf8EncodeChar (Char.ofNat (p.extend b)) = front ++ [b] := by
  obtain ⟨value, due, low, high, taken⟩ := p
  obtain ⟨hleast, hcontinues⟩ := h
  obtain rfl : due = 1 := Nat.le_antisymm hdue hleast
  exact hcontinues b hlow hhigh

/-- Any other byte that is due is one more that begins the character. -/
theorem Pending.Begins.extend {p : Pending} {front : List UInt8} {b : UInt8}
    (h : p.Begins front) (hlow : p.low ≤ b) (hhigh : b ≤ p.high) (hdue : ¬p.due ≤ 1) :
    Pending.Begins ⟨p.extend b, p.due - 1, 0x80, 0xBF, p.taken + 1⟩ (front ++ [b]) := by
  obtain ⟨value, due, low, high, taken⟩ := p
  obtain ⟨-, hcontinues⟩ := h
  obtain ⟨rest, rfl⟩ : ∃ rest, due = rest + 2 := ⟨due - 2, by simp at hdue; omega⟩
  exact ⟨by simp, hcontinues b hlow hhigh⟩

/-! ## Decoding -/

/-- The first character of those that are collected. -/
theorem exists_of_collect_char {all : List UInt8} {offset : Nat} {c : Char} {rest : List Item}
    {cs : List Char} (h : collect all offset (.char c :: rest) = .ok cs) :
    ∃ cs', collect all (offset + c.utf8Size) rest = .ok cs' ∧ cs = c :: cs' := by
  rw [collect] at h
  split at h
  · rename_i cs' hrest
    exact ⟨cs', hrest, (Except.ok.inj h).symm⟩
  · cases h

/-- What was read of a character that has been begun; nothing if none has been. -/
def Open : Option Pending → List UInt8 → Prop
  | none, front => front = []
  | some p, front => p.Begins front

/-- The characters that bytes are read as have these bytes, together with those that had been
read of the first character. -/
theorem flatMap_utf8EncodeChar_of_collect {all : List UInt8} {p? : Option Pending}
    {bytes front : List UInt8} {offset : Nat} {cs : List Char} (hopen : Open p? front)
    (h : collect all offset (items p? bytes) = .ok cs) :
    cs.flatMap String.utf8EncodeChar = front ++ bytes := by
  fun_induction items p? bytes generalizing front offset cs with
  | case1 =>
    obtain rfl : front = [] := hopen
    obtain rfl : [] = cs := Except.ok.inj h
    rfl
  | case2 p => cases h
  | case3 b bytes c hopening ih =>
    obtain rfl : front = [] := hopen
    obtain ⟨cs', hrest, rfl⟩ := exists_of_collect_char h
    rw [List.flatMap_cons, utf8EncodeChar_of_whole hopening, ih rfl hrest]
    rfl
  | case4 b bytes p hopening ih =>
    obtain rfl : front = [] := hopen
    exact ih (begins_of_lead hopening) h
  | case5 b bytes hopening ih => cases h
  | case6 p b bytes hrange hdue ih =>
    obtain ⟨hlow, hhigh⟩ := Bool.and_eq_true_iff.mp hrange
    obtain ⟨cs', hrest, rfl⟩ := exists_of_collect_char h
    rw [List.flatMap_cons, ih rfl hrest, hopen.utf8EncodeChar_extend (of_decide_eq_true hlow)
      (of_decide_eq_true hhigh) hdue]
    simp
  | case7 p b bytes hrange hdue ih =>
    obtain ⟨hlow, hhigh⟩ := Bool.and_eq_true_iff.mp hrange
    rw [ih (hopen.extend (of_decide_eq_true hlow) (of_decide_eq_true hhigh) hdue) h]
    simp
  | case8 p b bytes hrange => cases h

/-- Bytes that can be decoded are the bytes of their text. -/
theorem encode_of_decode {bytes : List UInt8} {s : String} (h : decode bytes = .ok s) :
    encode s = bytes := by
  rw [decode] at h
  cases hcollect : collect bytes 0 (items none bytes) with
  | error d => simp [hcollect, Except.map] at h
  | ok cs =>
    obtain rfl : String.ofList cs = s := by simpa [hcollect, Except.map] using h
    have hopen : Open none [] := rfl
    simpa [encode] using flatMap_utf8EncodeChar_of_collect hopen hcollect

end JavaFormat.Text.Utf8
