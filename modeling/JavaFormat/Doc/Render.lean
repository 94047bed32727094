import JavaFormat.Doc.Breaks
import JavaFormat.Doc.Fit
import JavaFormat.Options
import JavaFormat.Text.Blank

/-!
# Rendering

The renderer is a machine that works off a stack of commands. A step takes the
command on top and either prints something or puts simpler commands in its
place. Suffixes are collected in a buffer and put on the stack in front of the
next line break, or when the stack has run empty.

Every step lowers `State.weight`, which counts the commands, the suffixes and
what is left of every fill, so the weight of the initial state bounds the number
of steps and serves as the fuel of `run`.
-/

namespace JavaFormat.Doc

/-- The state of the renderer. -/
structure State where
  /-- Commands still to be carried out, the next one first. -/
  stack : List Command
  /-- Suffixes that wait for the next line break, the oldest first. -/
  suffixes : List Command := []
  /-- The characters printed so far, the last one first. -/
  printed : List Char := []
  /-- The number of characters on the current line. -/
  column : Nat := 0
  /-- Set when a certain break was met in flat mode: the next group is measured
  again. -/
  remeasure : Bool := false

/-- What a step came to. -/
inductive Step where
  | next (s : State)
  | done
  /-- A choice without a state has to be printed. -/
  | stateless

/-- The room left on the current line; negative when the line is too long. -/
def State.room (options : Options) (s : State) : Int :=
  (options.printWidth : Int) - (s.column : Int)

/-- Put a document on the stack. -/
def State.push (s : State) (level : Nat) (mode : Mode) (d : Doc) : State :=
  { s with stack := ⟨level, mode, d⟩ :: s.stack }

/-- Print a text on the current line. -/
def State.print (s : State) (text : String) : State :=
  { s with printed := text.toList.reverse ++ s.printed, column := s.column + text.length }

/-- Begin a new line: the blanks at the end of the old one go, unless the break
is literal, and so does the indentation of the new one. -/
def State.breakLine (options : Options) (s : State) (level : Nat) (literal : Bool) : State :=
  if literal then { s with printed := '\n' :: s.printed, column := 0 }
  else
    let width := level * options.tabWidth
    { s with
      printed := List.replicate width ' ' ++ '\n' :: s.printed.dropWhile Text.isPadding
      column := width }

/-- The state of a choice that is printed, with its mode: the first but for the
last that fits, followed by `rest`, or else the last one broken. -/
def chooseState (room : Int) (level : Nat) (rest : List Command) : List Doc → Option Command
  | [] => none
  | [last] => some ⟨level, .broken, last⟩
  | d :: ds =>
    match fits? false room (⟨level, .flat, d⟩ :: rest) with
    | some true => some ⟨level, .flat, d⟩
    | some false => chooseState room level rest ds
    | none => none

/-- The mode of a part that fits or does not. -/
def Mode.ofFits (fits : Bool) : Mode := if fits then .flat else .broken

/-- The commands that a fill is replaced by: its first content, the separator
after it and what is left. The separator is flat only if the next content fits
behind it. -/
def fillCommands (room : Int) (level : Nat) (mode : Mode) : List Doc → Option (List Command)
  | [] => some []
  | [content] => do
    let fits ← fits? true room [⟨level, .flat, content⟩]
    return [⟨level, .ofFits fits, content⟩]
  | [content, separator] => do
    let fits ← fits? true room [⟨level, .flat, content⟩]
    return [⟨level, .ofFits fits, content⟩, ⟨level, .ofFits fits, separator⟩]
  | content :: separator :: next :: more => do
    let fits ← fits? true room [⟨level, .flat, content⟩]
    let pairFits ← fits? true room [⟨level, .flat, .concat [content, separator, next]⟩]
    let remaining : Command := ⟨level, mode, .fill (next :: more)⟩
    if pairFits then
      return [⟨level, .flat, content⟩, ⟨level, .flat, separator⟩, remaining]
    else
      return [⟨level, .ofFits fits, content⟩, ⟨level, .broken, separator⟩, remaining]

/-- Carry out a line break; `s` is the state without its command. Suffixes that
wait go first, and the break is met again after them. -/
def State.takeBreak (options : Options) (s : State) (level : Nat) (mode : Mode)
    (style : LineStyle) : State :=
  if mode = .flat && !style.hard then
    if style.soft then s else s.print " "
  else
    let s := if mode = .flat then { s with remeasure := true } else s
    match s.suffixes with
    | [] => s.breakLine options level style.literal
    | waiting =>
      { s with stack := waiting ++ ⟨level, mode, .line style⟩ :: s.stack, suffixes := [] }

/-- Carry out one command; `s` is the state without it. -/
def State.execute (options : Options) (s : State) (c : Command) : Step :=
  match c.doc with
  | .text written => .next (s.print written)
  | .concat parts => .next { s with stack := parts.map (⟨c.level, c.mode, ·⟩) ++ s.stack }
  | .indent contents => .next (s.push (c.level + 1) c.mode contents)
  | .group marked contents =>
    if c.mode = .flat && !s.remeasure then
      .next (s.push c.level (c.mode.inside marked) contents)
    else
      let s := { s with remeasure := false }
      if marked then .next (s.push c.level .broken contents)
      else
        match fits? false (s.room options) (⟨c.level, .flat, contents⟩ :: s.stack) with
        | some fits => .next (s.push c.level (.ofFits fits) contents)
        | none => .stateless
  | .choice states =>
    if c.mode = .flat && !s.remeasure then
      match states with
      | [] => .stateless
      | d :: _ => .next (s.push c.level .flat d)
    else
      let s := { s with remeasure := false }
      match chooseState (s.room options) c.level s.stack states with
      | some chosen => .next { s with stack := chosen :: s.stack }
      | none => .stateless
  | .fill parts =>
    match fillCommands (s.room options) c.level c.mode parts with
    | some commands => .next { s with stack := commands ++ s.stack }
    | none => .stateless
  | .suffix contents =>
    .next { s with suffixes := s.suffixes ++ [⟨c.level, c.mode, contents⟩] }
  | .line style => .next (s.takeBreak options c.level c.mode style)
  | .breakParent => .next s

/-- One step of the renderer. -/
def State.step (options : Options) (s : State) : Step :=
  match s.stack with
  | c :: rest => { s with stack := rest }.execute options c
  | [] =>
    match s.suffixes with
    | [] => .done
    | waiting => .next { s with stack := waiting, suffixes := [] }

mutual

/-- How many steps a document can take part in. -/
def weight : Doc → Nat
  | .text _ => 1
  | .concat parts => 1 + weightAll parts
  | .group _ contents => 1 + weight contents
  | .choice states => 1 + weightAll states
  | .indent contents => 1 + weight contents
  | .fill parts => 1 + parts.length + weightAll parts
  | .line _ => 1
  | .suffix contents => 2 + weight contents
  | .breakParent => 1

/-- How many steps several documents can take part in. -/
def weightAll : List Doc → Nat
  | [] => 0
  | d :: ds => weight d + weightAll ds

end

/-- The steps that are left at most: a suffix that waits takes one more than its
contents. -/
def State.weight (s : State) : Nat :=
  weightAll (s.stack.map Command.doc) + s.suffixes.length +
    weightAll (s.suffixes.map Command.doc)

/-- Take steps until the renderer is done or the fuel is used up; `none` if a
choice without a state has to be printed. -/
def State.run (options : Options) : Nat → State → Option State
  | 0, s => some s
  | fuel + 1, s =>
    match s.step options with
    | .done => some s
    | .stateless => none
    | .next s' => run options fuel s'

/-- The state in which rendering a document begins. -/
def State.initial (d : Doc) : State := { stack := [⟨0, .broken, d⟩] }

/-- The text of a document, or `none` if a choice without a state has to be
printed. -/
def render? (options : Options) (d : Doc) : Option String :=
  let start := State.initial d.markBreaks
  (start.run options start.weight).map fun s => String.ofList s.printed.reverse

end JavaFormat.Doc
