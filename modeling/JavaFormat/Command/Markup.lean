import JavaFormat.Command.Perform

/-!
# Styled messages

Messages name their style in brackets: `[red]error[/red]`. A terminal without
styles shows them without the brackets. A path or an error can hold brackets too;
`escape` puts a backslash in front of whatever would be read as a style, and
`plain` takes it away again. A backslash in front of a bracket that is no style is
not shown. Lines are as long as they need to be.
-/

namespace JavaFormat.Command.Markup

/-- Whether a character can begin the name of a style or close one. -/
def beginsStyle (c : Char) : Bool :=
  ('a' ≤ c && c ≤ 'z') || c == '#' || c == '/' || c == '@'

/-- The rest of a bracket up to the first closing one, and what follows it; no
bracket is opened in between. -/
def closeBracket? : List Char → Option (List Char × List Char)
  | [] => none
  | c :: cs =>
    if c = ']' then some ([c], cs)
    else if c = '[' then none
    else (closeBracket? cs).map fun (inside, rest) => (c :: inside, rest)

/-- A style in brackets at the beginning of a text, and what follows it. -/
def style? : List Char → Option (List Char × List Char)
  | '[' :: c :: cs =>
    if beginsStyle c then
      (closeBracket? cs).map fun (inside, rest) => ('[' :: c :: inside, rest)
    else none
  | _ => none

/-- Escape a text, `backslashes` being the number of backslashes directly in front
of it. The fuel is the length of the text. -/
def escapeAfter (backslashes : Nat) : Nat → List Char → List Char
  | 0, _ => []
  | _ + 1, [] => []
  | fuel + 1, c :: cs =>
    if c = '\\' then c :: escapeAfter (backslashes + 1) fuel cs
    else
      match style? (c :: cs) with
      | some (style, rest) =>
        List.replicate (backslashes + 1) '\\' ++ style ++ escapeAfter 0 fuel rest
      | none => c :: escapeAfter 0 fuel cs

/-- One more backslash if a text ends in a single one. -/
def closeBackslash (cs : List Char) : List Char :=
  match cs.reverse with
  | '\\' :: '\\' :: _ => cs
  | '\\' :: _ => cs ++ ['\\']
  | _ => cs

/-- A text in which nothing is read as a style. -/
def escape (s : String) : String :=
  String.ofList (closeBackslash (escapeAfter 0 s.toList.length s.toList))

/-- The text shown for a message, `backslashes` being the number of backslashes
read and not yet shown. In front of a style they come in pairs, each of which
shows one, and an odd one makes the style text. In front of any other bracket the
last one is not shown. The fuel is the length of the message and one more. -/
def plainAfter (backslashes : Nat) : Nat → List Char → List Char
  | 0, _ => []
  | _ + 1, [] => List.replicate backslashes '\\'
  | fuel + 1, c :: cs =>
    if c = '\\' then plainAfter (backslashes + 1) fuel cs
    else
      match style? (c :: cs) with
      | some (style, rest) =>
        List.replicate (backslashes / 2) '\\' ++
          (if backslashes % 2 = 1 then style else []) ++ plainAfter 0 fuel rest
      | none =>
        List.replicate (if c = '[' then backslashes - 1 else backslashes) '\\' ++
          c :: plainAfter 0 fuel cs

/-- What a terminal without styles shows for a message. -/
def plain (s : String) : String :=
  String.ofList (plainAfter 0 (s.toList.length + 1) s.toList)

/-- A wide terminal without styles. -/
def console : Console where
  escape := escape
  out message := plain message ++ "\n"
  err message := plain message ++ "\n"

end JavaFormat.Command.Markup
