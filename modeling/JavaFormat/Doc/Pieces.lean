import JavaFormat.Doc.Render

/-!
# Putting out pieces

A state of the renderer says which characters have been printed. What the renderer hands on are
pieces: a text, a blank, or a line feed with the indentation of the next line. A piece stays as
it was put out, unless blanks have to go from the end of a line: they are taken from the last
piece, and if nothing is left of it, from the one in front.
-/

namespace JavaFormat.Doc

/-- The pieces that have been put out, the last one first. -/
abbrev Pieces := List String

namespace Pieces

/-- Take away the blanks at the end. A piece of blanks goes, and so do those at the end of the
piece in front of it. -/
def trim : Pieces → Pieces
  | [] => []
  | piece :: pieces =>
    let trimmed := String.ofList (Text.dropEndWhile Text.isPadding piece.toList)
    if trimmed.isEmpty then trim pieces else trimmed :: pieces

/-- All pieces as one text. -/
def join (pieces : Pieces) : String := String.join pieces.reverse

end Pieces

/-- What the next step makes of the pieces put out so far. -/
def State.putOut (options : Options) (s : State) (pieces : Pieces) : Pieces :=
  match s.stack with
  | ⟨_, _, .text written⟩ :: _ => written :: pieces
  | ⟨level, mode, .line style⟩ :: _ =>
    if mode = .flat && !style.hard then
      if style.soft then pieces else " " :: pieces
    else if s.suffixes.isEmpty then
      if style.literal then "\n" :: pieces
      else
        let indentation := String.ofList (List.replicate (level * options.tabWidth) ' ')
        ("\n" ++ indentation) :: pieces.trim
    else pieces
  | _ => pieces

/-- Take steps as `State.run` does, and put out what they print. -/
def State.runOut (options : Options) : Nat → State → Pieces → Option Pieces
  | 0, _, pieces => some pieces
  | fuel + 1, s, pieces =>
    match s.step options with
    | .done => some pieces
    | .stateless => none
    | .next s' => runOut options fuel s' (s.putOut options pieces)

/-- The text of a document, put out piece by piece, or `none` if a choice without a state has
to be printed. -/
def renderOut? (options : Options) (d : Doc) : Option String :=
  let start := State.initial d.markBreaks
  (start.runOut options start.weight []).map Pieces.join

end JavaFormat.Doc
