import JavaFormat.Text.Blank

/-!
# Whole numbers as text

Two grammars share their core: an optional sign and decimal digits, with single
underscores allowed between digits. A number on the command line may use the
decimal digits of any script; a number in a setting is written in ASCII digits
but may end in a point and zeros.
-/

namespace JavaFormat.Text

/-- The code points of the digit zero in the scripts that have decimal digits;
each is followed by the other nine digits. -/
def zeroDigits : List Nat := [
  48, 1632, 1776, 1984, 2406, 2534, 2662, 2790, 2918, 3046, 3174, 3302, 3430, 3558, 3664, 3792,
  3872, 4160, 4240, 6112, 6160, 6470, 6608, 6784, 6800, 6992, 7088, 7232, 7248, 42528, 43216,
  43264, 43472, 43504, 43600, 44016, 65296, 66720, 68912, 69734, 69872, 69942, 70096, 70384,
  70736, 70864, 71248, 71360, 71472, 71904, 72016, 72784, 73040, 73120, 92768, 92864, 93008,
  120782, 120792, 120802, 120812, 120822, 123200, 123632, 125264, 130032]

/-- The value of a decimal digit of any script. -/
def digit? (c : Char) : Option Nat :=
  (zeroDigits.find? fun first => first ≤ c.toNat && c.toNat ≤ first + 9).map (c.toNat - ·)

/-- The value of an ASCII digit. -/
def asciiDigit? (c : Char) : Option Nat := if c.isDigit then some (c.toNat - 48) else none

/-- The value of digits, single underscores between them skipped, that follow
digits of value `value`. -/
def digitsAfter? (digit? : Char → Option Nat) (value : Nat) : List Char → Option Nat
  | [] => some value
  | '_' :: c :: rest => (digit? c).bind fun d => digitsAfter? digit? (10 * value + d) rest
  | c :: rest => (digit? c).bind fun d => digitsAfter? digit? (10 * value + d) rest

/-- The value of at least one digit, single underscores between digits skipped. -/
def digits? (digit? : Char → Option Nat) : List Char → Option Nat
  | [] => none
  | c :: rest => (digit? c).bind fun d => digitsAfter? digit? d rest

/-- The value of digits with an optional sign in front. -/
def signed? (digit? : Char → Option Nat) : List Char → Option Int
  | '-' :: rest => (digits? digit? rest).map fun n => -(n : Int)
  | '+' :: rest => (digits? digit? rest).map Int.ofNat
  | cs => (digits? digit? cs).map Int.ofNat

/-- A whole number on the command line. -/
def argumentInt? (s : String) : Option Int := signed? digit? (trim s).toList

/-- White space that may surround a number in a setting: all blanks but the
information separators. -/
def isWhiteSpace (c : Char) : Bool := isBlank c && !(0x1C ≤ c.toNat && c.toNat ≤ 0x1F)

/-- The digits in front of a point that only zeros follow; all of them if there
is no point. -/
def withoutZeroFraction? (cs : List Char) : Option (List Char) :=
  match cs.dropWhile (· != '.') with
  | [] => some cs
  | _ :: fraction =>
    if fraction.all (· == '0') then some (cs.takeWhile (· != '.')) else none

/-- A whole number in a setting. -/
def settingInt? (s : String) : Option Int :=
  (withoutZeroFraction? (dropEndWhile isWhiteSpace (s.toList.dropWhile isWhiteSpace))).bind
    (signed? asciiDigit?)

end JavaFormat.Text
