import JavaFormat.Doc.Basic

/-!
# Looking ahead

Before a group, a state of a choice or a piece of a fill is printed flat, its
first line is measured, together with what follows it on that line. The measure
stops at the first break that is certain to be taken or as soon as the room is
used up, so it never looks further than one line.
-/

namespace JavaFormat.Doc

/-- Whether the possible breaks of a document are taken. -/
inductive Mode where
  | broken
  | flat
deriving DecidableEq, Repr

/-- What measuring came to. -/
inductive Fit where
  /-- No line break yet, and so much room left. -/
  | room (left : Nat)
  /-- The line ended in time. -/
  | ended
  /-- The room did not suffice. -/
  | over
  /-- A choice without a state was met. -/
  | stateless
deriving DecidableEq, Repr

/-- The mode in which the contents of a group are measured. -/
def Mode.inside (mode : Mode) (marked : Bool) : Mode := if marked then .broken else mode

mutual

/-- Measure a document in the given mode. With `strict` set, a group that is
marked broken does not fit. A choice counts as its first state when flat and as
its last when broken. -/
def fit (strict : Bool) (mode : Mode) (width : Nat) : Doc → Fit
  | .text s => if s.length ≤ width then .room (width - s.length) else .over
  | .concat parts => fitAll strict mode width parts
  | .group marked contents =>
    if strict && marked then .over else fit strict (mode.inside marked) width contents
  | .choice states =>
    match mode with
    | .broken => fitLast strict .broken width states
    | .flat => fitFirst strict .flat width states
  | .indent contents => fit strict mode width contents
  | .fill parts => fitAll strict mode width parts
  | .line style =>
    if mode = .broken || style.hard then .ended
    else if style.soft then .room width
    else if 1 ≤ width then .room (width - 1) else .over
  | .suffix _ => .room width
  | .breakParent => .room width

/-- Measure documents one after the other. -/
def fitAll (strict : Bool) (mode : Mode) (width : Nat) : List Doc → Fit
  | [] => .room width
  | d :: ds =>
    match fit strict mode width d with
    | .room left => fitAll strict mode left ds
    | found => found

/-- Measure the first of several states. -/
def fitFirst (strict : Bool) (mode : Mode) (width : Nat) : List Doc → Fit
  | [] => .stateless
  | d :: _ => fit strict mode width d

/-- Measure the last of several states. -/
def fitLast (strict : Bool) (mode : Mode) (width : Nat) : List Doc → Fit
  | [] => .stateless
  | [d] => fit strict mode width d
  | _ :: ds => fitLast strict mode width ds

end

/-- A document still to be printed, with its mode and its level. -/
structure Command where
  /-- The number of levels that lines begun inside are indented by. -/
  level : Nat
  mode : Mode
  doc : Doc

/-- Measure commands one after the other. -/
def fitCommands (strict : Bool) (width : Nat) : List Command → Fit
  | [] => .room width
  | c :: cs =>
    match fit strict c.mode width c.doc with
    | .room left => fitCommands strict left cs
    | found => found

/-- Whether the first line of some commands is no longer than `width`, which is
negative when the line is too long already; `none` if a choice without a state
is met on it. -/
def fits? (strict : Bool) (width : Int) (commands : List Command) : Option Bool :=
  if width < 0 then some false
  else
    match fitCommands strict width.toNat commands with
    | .room _ => some true
    | .ended => some true
    | .over => some false
    | .stateless => none

end JavaFormat.Doc
