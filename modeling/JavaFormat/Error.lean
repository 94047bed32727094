import JavaFormat.Syntax.EntryPoint
import JavaFormat.Text.Quoted
import JavaFormat.Text.Utf8

/-!
# What can go wrong

Errors are causes; their wording is in `message` alone. A syntax error points at
the source that was given, with lines and columns counted from one.
-/

namespace JavaFormat

/-- What is wrong with a source that is no Java. -/
inductive SyntaxFault where
  /-- A token of the given type is missing. -/
  | missing (type : String)
  /-- Something that cannot stand where it does, given by its first line. -/
  | unexpected (snippet : String)
  /-- The source is faulty, but nothing in it can be blamed. -/
  | invalid
  /-- A fragment that broke out of its scaffold. -/
  | notFragment (entry : EntryPoint)
deriving DecidableEq, Repr

/-- A fault and where it is. -/
structure SyntaxError where
  fault : SyntaxFault
  /-- The line, counted from one. -/
  line : Nat
  /-- The column in bytes, counted from one. -/
  column : Nat
deriving DecidableEq, Repr

/-- A node whose children are not those that its kind calls for. -/
inductive ShapeError where
  /-- A fixed number of children is called for, and there are more or fewer. -/
  | childCount (expected found : Nat)
  /-- A least number of children is called for, and there are fewer. -/
  | tooFewChildren (least found : Nat)
  /-- A child that is called for is not there. -/
  | noChild
  /-- A binary expression with something else than a binary operator. -/
  | unknownOperator (text : String)
deriving DecidableEq, Repr

/-- Why there is no formatted source. -/
inductive FormatError where
  | syntaxError (e : SyntaxError)
  | unknownEntryPoint (word : String)
  | unhandledKind (name : String)
  | undecodable (d : Text.Utf8.Defect)
  /-- A comment, given by its text and its line counted from one, for which there
  is no node. -/
  | unattachedComment (text : String) (line : Nat)
  | badShape (e : ShapeError)
  /-- A choice without a state had to be printed. -/
  | noState
  /-- The output is no Java. -/
  | invalidOutput (e : SyntaxError)
  /-- Comments that are not in the output as often as in the source. -/
  | lostComments (keys : List String)
deriving DecidableEq, Repr

/-- The fault in words. -/
def SyntaxFault.message : SyntaxFault → String
  | .missing type => "Missing '" ++ type ++ "'"
  | .unexpected snippet => "Unexpected input " ++ Text.quote snippet
  | .invalid => "Invalid Java source"
  | .notFragment entry => "Fragment is not a valid " ++ entry.name

/-- The fault in words, and where it is. -/
def SyntaxError.message (e : SyntaxError) : String :=
  e.fault.message ++ " (" ++ toString e.line ++ ":" ++ toString e.column ++ ")"

/-- The mismatch in words. -/
def ShapeError.message : ShapeError → String
  | .childCount expected found =>
    if expected < found then "too many values to unpack (expected " ++ toString expected ++ ")"
    else
      "not enough values to unpack (expected " ++ toString expected ++ ", got " ++
        toString found ++ ")"
  | .tooFewChildren least found =>
    "not enough values to unpack (expected at least " ++ toString least ++ ", got " ++
      toString found ++ ")"
  | .noChild => "a child is lacking"
  | .unknownOperator text => "no binary operator: " ++ Text.quote text

/-- The error in words. -/
def FormatError.message : FormatError → String
  | .syntaxError e => e.message
  | .unknownEntryPoint word => Text.quote word ++ " is not a valid EntryPoint"
  | .unhandledKind name => "No layout builder for node kind '" ++ name ++ "'"
  | .undecodable d => d.message
  | .unattachedComment text line =>
    "Comment on line " ++ toString line ++ " could not be attached to any node: " ++ Text.quote text
  | .badShape e => e.message
  | .noState => "a choice has no state"
  | .invalidOutput e => "Formatted output is not valid Java: " ++ e.message
  | .lostComments keys =>
    toString keys.length ++ " comment(s) not kept exactly once while formatting: " ++
      String.intercalate ", " ((keys.take 3).map Text.quote)

/-- Whether the error is one of formatting, rather than a source or a tree that
formatting does not apply to. -/
def FormatError.isReported : FormatError → Bool
  | .syntaxError _ | .unhandledKind _ | .unattachedComment _ _ | .invalidOutput _
  | .lostComments _ => true
  | .unknownEntryPoint _ | .undecodable _ | .badShape _ | .noState => false

/-- The entry point of a word; no word and the empty one stand for the whole
compilation unit. -/
def EntryPoint.read (word : Option String) : Except FormatError EntryPoint :=
  match word with
  | none => .ok .compilationUnit
  | some s =>
    if s.isEmpty then .ok .compilationUnit
    else
      match EntryPoint.ofName? s with
      | some entry => .ok entry
      | none => .error (.unknownEntryPoint s)

end JavaFormat
