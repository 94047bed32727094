import JavaFormat.Files.Path
import JavaFormat.Options.Setting
import JavaFormat.Syntax.EntryPoint

/-!
# Arguments

Arguments are read in two steps: options are told from operands by the options
that a command knows, and then their values are looked at. An option may come
anywhere; if it is given more than once, the last one counts. Whatever is wrong
with the arguments is one error, since the program then does nothing but say how
it is used.
-/

namespace JavaFormat.Command

/-- The options of the commands. -/
inductive Switch where
  | write
  | printWidth
  | tabWidth
  | tieBreak
  | jobs
  | entryPoint
deriving DecidableEq, Repr

/-- Whether an option has a value. -/
def Switch.takesValue : Switch → Bool
  | .write => false
  | _ => true

/-- The option of a long name. -/
def Switch.ofLong? : String → Option Switch
  | "--write" => some .write
  | "--print-width" => some .printWidth
  | "--tab-width" => some .tabWidth
  | "--comment-tie-break" => some .tieBreak
  | "--jobs" => some .jobs
  | "--entry-point" => some .entryPoint
  | _ => none

/-- The option of a letter. -/
def Switch.ofLetter? : Char → Option Switch
  | 'w' => some .write
  | 'j' => some .jobs
  | _ => none

/-- The commands. -/
inductive Verb where
  | format
  | check
  | doc
deriving DecidableEq, Repr

/-- The command of a name. -/
def Verb.ofName? : String → Option Verb
  | "format" => some .format
  | "check" => some .check
  | "doc" => some .doc
  | _ => none

/-- The options that a command knows. -/
def Verb.knows : Verb → Switch → Bool
  | .format, .entryPoint => false
  | .format, _ => true
  | .check, .write | .check, .entryPoint => false
  | .check, _ => true
  | .doc, .write | .doc, .jobs => false
  | .doc, _ => true

/-- Options with their values, and operands. -/
structure Arguments where
  switches : List (Switch × String) := []
  operands : List String := []

/-- The options of a group of letters behind one dash. The first one that has a
value takes the rest of the group as its value; `none` stands for a value that is
yet to come. -/
def letters? (verb : Verb) : List Char → Option (List (Switch × Option String))
  | [] => some []
  | c :: cs =>
    match Switch.ofLetter? c with
    | none => none
    | some switch =>
      if !verb.knows switch then none
      else if switch.takesValue then
        some [(switch, if cs.isEmpty then none else some (String.ofList cs))]
      else (letters? verb cs).map ((switch, some "") :: ·)

/-- The option of a long name, with the value behind an equals sign. -/
def long? (verb : Verb) (word : List Char) : Option (Switch × Option String) :=
  let name := String.ofList (word.takeWhile (· != '='))
  match Switch.ofLong? name, word.dropWhile (· != '=') with
  | none, _ => none
  | some switch, value =>
    if !verb.knows switch then none
    else
      match value with
      | [] => some (switch, if switch.takesValue then none else some "")
      | _ :: rest => if switch.takesValue then some (switch, some (String.ofList rest)) else none

/-- The options that one word holds, or `none` if it is an operand; the inner
`none` is an error. -/
def options? (verb : Verb) (word : String) : Option (Option (List (Switch × Option String))) :=
  match word.toList with
  | '-' :: '-' :: _ => some ((long? verb word.toList).map ([·]))
  | '-' :: c :: cs => some (letters? verb (c :: cs))
  | _ => none

/-- Tell options from operands; `none` if there is an error. -/
def split? (verb : Verb) : List String → Option Arguments
  | [] => some {}
  | word :: rest =>
    if word = "--" then some { operands := rest }
    else
      match options? verb word with
      | none => (split? verb rest).map fun a => { a with operands := word :: a.operands }
      | some none => none
      | some (some switches) =>
        let given := switches.filterMap fun (switch, value) => value.map (switch, ·)
        match switches.find? (·.2.isNone) with
        | none => (split? verb rest).map fun a => { a with switches := given ++ a.switches }
        | some (switch, _) =>
          match rest with
          | [] => none
          | value :: rest' =>
            (split? verb rest').map fun a =>
              { a with switches := given ++ (switch, value) :: a.switches }

/-- The value of an option. -/
def Arguments.value? (a : Arguments) (switch : Switch) : Option String :=
  (a.switches.reverse.find? (·.1 == switch)).map (·.2)

/-- The value of an option, read; the outer `none` is an error. -/
def Arguments.read? {α : Type} (a : Arguments) (switch : Switch) (read : String → Option α) :
    Option (Option α) :=
  match a.value? switch with
  | none => some none
  | some s => (read s).map some

/-- What is to be done. -/
inductive Request where
  | format (paths : List Path) (write : Bool) (settings : Settings)
  | check (paths : List Path) (settings : Settings)
  | doc (path : Path) (entry : EntryPoint) (settings : Settings)

/-- The settings that options give. -/
def Arguments.settings? (a : Arguments) : Option Settings := do
  let printWidth ← a.read? .printWidth Text.argumentInt?
  let tabWidth ← a.read? .tabWidth Text.argumentInt?
  let tieBreak ← a.read? .tieBreak TieBreak.ofName?
  return { printWidth := printWidth.map .integer, tabWidth := tabWidth.map .integer
           tieBreak := tieBreak.map fun p => .text p.name }

/-- A number of jobs. -/
def jobs? (s : String) : Option Int := (Text.argumentInt? s).filter (1 ≤ ·)

/-- The request that the arguments of a command make; `none` if there is an error. -/
def Arguments.request? (a : Arguments) (verb : Verb) : Option Request := do
  let settings ← a.settings?
  let _ ← a.read? .jobs jobs?
  match verb, a.operands with
  | .format, [] => none
  | .format, paths =>
    return .format (paths.map .ofString) (a.value? .write).isSome settings
  | .check, [] => none
  | .check, paths => return .check (paths.map .ofString) settings
  | .doc, [path] =>
    let entry ← a.read? .entryPoint EntryPoint.ofName?
    if path.isEmpty then none
    else return .doc (.ofString path) (entry.getD .compilationUnit) settings
  | .doc, _ => none

/-- The request that all arguments make; `none` if there is an error. -/
def Request.ofArguments? : List String → Option Request
  | [] => none
  | name :: rest => do
    let verb ← Verb.ofName? name
    (← split? verb rest).request? verb

end JavaFormat.Command
