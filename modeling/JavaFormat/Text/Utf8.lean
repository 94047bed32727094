/-!
# UTF-8

Bytes are read one at a time. A sequence that has been begun is carried along
as `Pending`; it knows how many continuation bytes are due and in which range
the next one has to lie, so overlong forms, surrogates and values past U+10FFFF
are turned away at their second byte. What cannot be read becomes a `Defect`
covering the longest part that could still have been the beginning of a
character, and reading goes on at the byte after it.

`decode` gives the text or the first defect; `decodeLossy` writes U+FFFD for
each defect.
-/

namespace JavaFormat.Text.Utf8

/-- Why some bytes are no character. -/
inductive Reason where
  /-- A byte that begins no character. -/
  | strayByte
  /-- A character begun and not continued. -/
  | brokenOff
  /-- The bytes end inside a character. -/
  | endOfData
deriving DecidableEq, Repr

/-- A character of more than one byte of which the first bytes were read. -/
structure Pending where
  /-- The payload bits read so far. -/
  value : Nat
  /-- Continuation bytes still due, at least one. -/
  due : Nat
  /-- The least byte that continues the character. -/
  low : UInt8
  /-- The greatest byte that continues the character. -/
  high : UInt8
  /-- Bytes read so far. -/
  taken : Nat
deriving DecidableEq, Repr

/-- One unit of what bytes are read as. -/
inductive Item where
  /-- A character. -/
  | char (c : Char)
  /-- So many bytes that are no character. -/
  | defect (length : Nat) (reason : Reason)
deriving DecidableEq, Repr

/-- What a byte at the beginning of a character says about it. -/
inductive Opening where
  | whole (c : Char)
  | lead (p : Pending)
  | stray

/-- Classify the first byte of a character. -/
def opening (b : UInt8) : Opening :=
  let n := b.toNat
  if n < 0x80 then .whole (Char.ofNat n)
  else if n < 0xC2 then .stray
  else if n < 0xE0 then .lead ⟨n - 0xC0, 1, 0x80, 0xBF, 1⟩
  else if n < 0xF0 then
    .lead ⟨n - 0xE0, 2, if n == 0xE0 then 0xA0 else 0x80, if n == 0xED then 0x9F else 0xBF, 1⟩
  else if n < 0xF5 then
    .lead ⟨n - 0xF0, 3, if n == 0xF0 then 0x90 else 0x80, if n == 0xF4 then 0x8F else 0xBF, 1⟩
  else .stray

/-- The payload of a begun character after one more byte. -/
def Pending.extend (p : Pending) (b : UInt8) : Nat := p.value * 64 + (b.toNat - 0x80)

/-- Read bytes, a character having been begun or not. -/
def items : Option Pending → List UInt8 → List Item
  | none, [] => []
  | some p, [] => [.defect p.taken .endOfData]
  | none, b :: bytes =>
    match opening b with
    | .whole c => .char c :: items none bytes
    | .lead p => items (some p) bytes
    | .stray => .defect 1 .strayByte :: items none bytes
  | some p, b :: bytes =>
    if p.low ≤ b && b ≤ p.high then
      if p.due ≤ 1 then .char (Char.ofNat (p.extend b)) :: items none bytes
      else items (some ⟨p.extend b, p.due - 1, 0x80, 0xBF, p.taken + 1⟩) bytes
    else
      .defect p.taken .brokenOff ::
        match opening b with
        | .whole c => .char c :: items none bytes
        | .lead q => items (some q) bytes
        | .stray => .defect 1 .strayByte :: items none bytes

/-- Where and why reading failed. -/
structure Defect where
  /-- Offset of the first byte that is part of no character. -/
  start : Nat
  /-- The bytes from `start` to `start + length - 1` are the first ones in vain. -/
  length : Nat
  /-- The first of these bytes. -/
  byte : UInt8
  reason : Reason
deriving DecidableEq, Repr

/-- The characters of `items` up to the first defect, with the offset of each. -/
def collect (bytes : List UInt8) : Nat → List Item → Except Defect (List Char)
  | _, [] => .ok []
  | offset, .char c :: rest =>
    match collect bytes (offset + c.utf8Size) rest with
    | .ok cs => .ok (c :: cs)
    | .error e => .error e
  | offset, .defect length reason :: _ =>
    .error ⟨offset, length, (bytes[offset]?).getD 0, reason⟩

/-- The text that bytes spell, or the first place where they spell none. -/
def decode (bytes : List UInt8) : Except Defect String :=
  (collect bytes 0 (items none bytes)).map String.ofList

/-- The text that bytes spell, with U+FFFD for every defect. -/
def decodeLossy (bytes : List UInt8) : String :=
  String.ofList ((items none bytes).map fun
    | .char c => c
    | .defect _ _ => Char.ofNat 0xFFFD)

/-- The bytes of a text. -/
def encode (s : String) : List UInt8 := s.toList.flatMap String.utf8EncodeChar

/-- The reason in the words of a report. -/
def Reason.message : Reason → String
  | .strayByte => "invalid start byte"
  | .brokenOff => "invalid continuation byte"
  | .endOfData => "unexpected end of data"

/-- A byte as two hexadecimal digits. -/
def hexByte (b : UInt8) : String :=
  String.ofList [Nat.digitChar (b.toNat / 16), Nat.digitChar (b.toNat % 16)]

/-- The defect in the words of a report: a single byte is quoted, several are
given by their offsets. -/
def Defect.message (d : Defect) : String :=
  let place :=
    if d.length == 1 then "byte 0x" ++ hexByte d.byte ++ " in position " ++ toString d.start
    else "bytes in position " ++ toString d.start ++ "-" ++ toString (d.start + d.length - 1)
  "'utf-8' codec can't decode " ++ place ++ ": " ++ d.reason.message

end JavaFormat.Text.Utf8
