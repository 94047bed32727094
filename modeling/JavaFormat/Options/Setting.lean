import JavaFormat.Options
import JavaFormat.Text.Numeral

/-!
# Settings

Settings come from outside, as numbers, flags or texts. Checking them is
lenient about how a number is written and strict about the number itself; all
settings are checked and all problems reported, in the order of the options.
-/

namespace JavaFormat

/-- A value as it comes from outside. -/
inductive Setting where
  | integer (n : Int)
  /-- A number that is not whole. -/
  | fraction
  | flag (b : Bool)
  | text (s : String)
  /-- Anything else: a missing value, a list or a record. -/
  | other
deriving DecidableEq, Repr

/-- What can be wrong with a setting. -/
inductive Setting.Problem where
  /-- A text that is no whole number. -/
  | notNumeral
  /-- A number that is not whole. -/
  | notWhole
  /-- Neither a number nor a text. -/
  | notNumber
  /-- A number below one. -/
  | tooSmall
  /-- Not a word for a policy. -/
  | notPolicy
deriving DecidableEq, Repr

/-- The options that a setting can be for. -/
inductive Field where
  | printWidth
  | tabWidth
  | tieBreak
deriving DecidableEq, Repr

/-- The name of an option. -/
def Field.name : Field → String
  | .printWidth => "print_width"
  | .tabWidth => "tab_width"
  | .tieBreak => "comment_tie_break"

/-- The whole number that a setting stands for. A flag counts as one or zero. -/
def Setting.toInt : Setting → Except Problem Int
  | .integer n => .ok n
  | .fraction => .error .notWhole
  | .flag b => .ok (if b then 1 else 0)
  | .text s =>
    match Text.settingInt? s with
    | some n => .ok n
    | none => .error .notNumeral
  | .other => .error .notNumber

/-- The width that a setting stands for. -/
def Setting.toWidth (s : Setting) : Except Problem { n : Nat // 0 < n } :=
  match s.toInt with
  | .ok n => if h : 0 < n then .ok ⟨n.toNat, by omega⟩ else .error .tooSmall
  | .error e => .error e

/-- The policy that a setting stands for. -/
def Setting.toTieBreak : Setting → Except Problem TieBreak
  | .text s =>
    match TieBreak.ofName? s with
    | some p => .ok p
    | none => .error .notPolicy
  | _ => .error .notPolicy

/-- Settings for some of the options. -/
structure Settings where
  printWidth : Option Setting := none
  tabWidth : Option Setting := none
  tieBreak : Option Setting := none
deriving Repr

/-- A setting, if there is one, or else the default. -/
def Setting.checked {α : Type} (check : Setting → Except Problem α) (default : α) :
    Option Setting → Except Problem α
  | some s => check s
  | none => .ok default

/-- What is wrong with a setting, as an entry of a report. -/
def Field.problem {α : Type} (field : Field) : Except Setting.Problem α →
    List (Field × Setting.Problem)
  | .ok _ => []
  | .error e => [(field, e)]

/-- The options that settings stand for, or everything that is wrong with them. -/
def Settings.toOptions (s : Settings) : Except (List (Field × Setting.Problem)) Options :=
  let own : Options := default
  let printWidth := Setting.checked Setting.toWidth ⟨own.printWidth, own.printWidth_pos⟩ s.printWidth
  let tabWidth := Setting.checked Setting.toWidth ⟨own.tabWidth, own.tabWidth_pos⟩ s.tabWidth
  let tieBreak := Setting.checked Setting.toTieBreak own.tieBreak s.tieBreak
  match printWidth, tabWidth, tieBreak with
  | .ok width, .ok tab, .ok policy =>
    .ok { printWidth := width.val, tabWidth := tab.val, tieBreak := policy
          printWidth_pos := width.property, tabWidth_pos := tab.property }
  | _, _, _ =>
    .error (Field.problem .printWidth printWidth ++ Field.problem .tabWidth tabWidth ++
      Field.problem .tieBreak tieBreak)

/-- The environment variable of an option. -/
def Field.environmentName : Field → String
  | .printWidth => "JAVA_LAYOUT_PRINT_WIDTH"
  | .tabWidth => "JAVA_LAYOUT_TAB_WIDTH"
  | .tieBreak => "JAVA_LAYOUT_COMMENT_TIE_BREAK"

/-- The setting of an option in an environment; an empty one counts as none. -/
def Field.fromEnvironment (environment : String → Option String) (field : Field) :
    Option Setting :=
  match environment field.environmentName with
  | some s => if s.isEmpty then none else some (.text s)
  | none => none

/-- Settings of the environment, with others on top. -/
def Settings.withEnvironment (environment : String → Option String) (s : Settings) : Settings where
  printWidth := s.printWidth <|> Field.printWidth.fromEnvironment environment
  tabWidth := s.tabWidth <|> Field.tabWidth.fromEnvironment environment
  tieBreak := s.tieBreak <|> Field.tieBreak.fromEnvironment environment

end JavaFormat
