import JavaFormat.Doc.Fit

/-!
# Looking ahead, one document at a time

`fits?` measures documents along their structure. The look-ahead that the renderer
starts is a loop: it works off a stack of documents with their modes, and when that
has run empty it goes on with the commands below the one it began with, one at a
time and without taking them off their own stack. It stops as soon as the room is
used up, at a break that is certain to be taken, or when nothing follows.
-/

namespace JavaFormat.Doc

/-- The state of a look-ahead. -/
structure Lookahead where
  /-- The room left on the line; negative when the line is too long. -/
  room : Int
  /-- Documents still to be measured, with their modes, the next one first. -/
  stack : List (Mode × Doc)
  /-- The commands that follow them, the next one first. -/
  rest : List Command

/-- What a step of a look-ahead came to. -/
inductive Lookahead.Step where
  | next (a : Lookahead)
  | answer (fits : Bool)
  /-- A choice without a state was met. -/
  | stateless

/-- Put documents in front of what is still to be measured. -/
def Lookahead.push (a : Lookahead) (mode : Mode) (docs : List Doc) : Lookahead :=
  { a with stack := docs.map (mode, ·) ++ a.stack }

/-- The state that a choice is measured as. -/
def Mode.measured? (mode : Mode) (states : List Doc) : Option Doc :=
  match mode with
  | .broken => states.getLast?
  | .flat => states.head?

/-- Measure a document; `a` is the state without it. -/
def Lookahead.measure (strict : Bool) (a : Lookahead) (mode : Mode) : Doc → Lookahead.Step
  | .text s => .next { a with room := a.room - s.length }
  | .concat parts => .next (a.push mode parts)
  | .fill parts => .next (a.push mode parts)
  | .indent contents => .next (a.push mode [contents])
  | .choice states =>
    match mode.measured? states with
    | some d => .next (a.push mode [d])
    | none => .stateless
  | .group marked contents =>
    if strict && marked then .answer false else .next (a.push (mode.inside marked) [contents])
  | .line style =>
    if mode = .broken || style.hard then .answer true
    else if style.soft then .next a
    else .next { a with room := a.room - 1 }
  | .suffix _ => .next a
  | .breakParent => .next a

/-- One step of a look-ahead. -/
def Lookahead.step (strict : Bool) (a : Lookahead) : Lookahead.Step :=
  if a.room < 0 then .answer false
  else
    match a.stack, a.rest with
    | (mode, d) :: stack, _ => { a with stack := stack }.measure strict mode d
    | [], c :: rest => .next { a with stack := [(c.mode, c.doc)], rest := rest }
    | [], [] => .answer true

/-- Begin to look ahead at a command and what follows it. -/
def Lookahead.start (room : Int) (c : Command) (rest : List Command) : Lookahead :=
  ⟨room, [(c.mode, c.doc)], rest⟩

/-- Go on looking ahead until there is an answer. There is none if a choice without a
state is met, or if it takes longer than the fuel lasts. -/
def Lookahead.run (strict : Bool) : Nat → Lookahead → Option Bool
  | 0, _ => none
  | fuel + 1, a =>
    match a.step strict with
    | .next a' => run strict fuel a'
    | .answer fits => some fits
    | .stateless => none

end JavaFormat.Doc
