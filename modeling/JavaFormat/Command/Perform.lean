import JavaFormat.Command.Arguments
import JavaFormat.Doc.Dump
import JavaFormat.Files.Run
import JavaFormat.Formatter

/-!
# Commands

What a command does is a function of the files on disk: it prints to two streams,
ends with an exit code and leaves the files changed or not. A problem that no
command provides for ends it with exit code one and without a word.

How a message with styles is shown, and which settings are options, is not for the commands
to say; both are parameters.
-/

namespace JavaFormat.Command

/-- What shows messages. A message names its styles in brackets. -/
structure Console where
  /-- A text written in such a way that nothing in it names a style. -/
  escape : String → String
  /-- What is shown of a message on the standard stream. -/
  out : String → String
  /-- What is shown of a message on the stream of errors. -/
  err : String → String

/-- The validation of settings: the options that they are, if they are any. -/
abbrev Validation := Settings → Option Options

/-- What a command came to. -/
structure Outcome where
  exitCode : Nat := 0
  stdout : String := ""
  stderr : String := ""
  /-- What is on disk afterwards. -/
  store : Store
  /-- The problem that the command did not provide for. -/
  escaped : Option FileProblem := none

/-- What arguments come to: an error in their use, or what their command did. -/
inductive Result where
  | usage
  | ended (o : Outcome)

/-- A problem that the command did not provide for, as its outcome. -/
def escape (store : Store) (problem : FileProblem) : Outcome :=
  { exitCode := 1, store := store, escaped := some problem }

section Messages

variable (console : Console)

/-- An error as a line. -/
def errorLine (message : String) : String := console.err ("[red]error[/red] " ++ message)

/-- What is wrong with a file, as a line. -/
def fileErrorLine (p : Path) (message : String) : String :=
  errorLine console (console.escape p.toString ++ ": " ++ console.escape message)

/-- Why no files were found, as the outcome of a command. Only paths that lead nowhere are
provided for. -/
def refused (store : Store) : Refusal → Outcome
  | .missing p =>
    { exitCode := 2, stderr := errorLine console (console.escape p.missingMessage)
      store := store }
  | .fault f => escape store (.fault f)

/-- A problem with a file, as the outcome of a command that is about that file
alone. Only the errors of formatting are provided for. -/
def fileError (store : Store) (p : Path) (problem : FileProblem) : Outcome :=
  if problem.isReported then
    { exitCode := 1, stderr := fileErrorLine console p problem.message, store := store }
  else escape store problem

/-- Read the text of a file and go on with it. -/
def withText {α : Type} (store : Store) (p : Path) (proceed : String → Except FormatError α) :
    Except FileProblem α :=
  match store.read p with
  | .error e => .error (.fault ⟨e, p⟩)
  | .ok (_, bytes) =>
    match Text.Utf8.decode bytes with
    | .error d => .error (.failed (.undecodable d))
    | .ok text =>
      match proceed text with
      | .ok a => .ok a
      | .error e => .error (.failed e)

/-- Print the formatted text of a single file. -/
def printFormatted (f : Formatter) (options : Options) (store : Store) (files : List Path) :
    Outcome :=
  match files with
  | [p] =>
    match withText store p (f.format options .compilationUnit) with
    | .ok text => { stdout := text, store := store }
    | .error problem => fileError console store p problem
  | _ =>
    { exitCode := 2, stderr := errorLine console "pass --write to format more than one file"
      store := store }

/-- The failures of a run, one a line. -/
def failureLines (reports : List FileReport) : String :=
  String.join (reports.map fun r =>
    match r.problem with
    | some problem => fileErrorLine console r.path problem.message
    | none => "")

/-- The number of reports of failures. -/
def failureCount (reports : List FileReport) : Nat := reports.countP (·.problem.isSome)

/-- The number of reports of changes. -/
def changeCount (reports : List FileReport) : Nat := reports.countP (·.changed)

/-- Say of each changed file what was done or would be done to it. -/
def changeLines (what : String) (reports : List FileReport) : String :=
  String.join ((reports.filter (·.changed)).map fun r =>
    console.out (what ++ " " ++ console.escape r.path.toString))

/-- What is said about a run that writes. -/
def summary (reports : List FileReport) : String :=
  console.out (toString reports.length ++ " file(s) checked, " ++
    toString (changeCount reports) ++ " reformatted, " ++ toString (failureCount reports) ++
    " failed")

/-- Format files in place. -/
def writeFormatted (run : Run) : Outcome :=
  match run.escaped with
  | some problem => escape run.store problem
  | none =>
    { exitCode := if failureCount run.reports = 0 then 0 else 1
      stdout := changeLines console "[green]formatted[/green]" run.reports ++
        summary console run.reports
      stderr := failureLines console run.reports
      store := run.store }

/-- List the files that are not formatted. -/
def checkFormatted (run : Run) : Outcome :=
  match run.escaped with
  | some problem => escape run.store problem
  | none =>
    let clean := failureCount run.reports + changeCount run.reports = 0
    { exitCode := if clean then 0 else 1
      stdout :=
        if clean then
          console.out ("[green]" ++ toString run.reports.length ++
            " file(s) already formatted[/green]")
        else changeLines console "[yellow]would reformat[/yellow]" run.reports
      stderr := failureLines console run.reports
      store := run.store }

/-- Print the document of a file. -/
def printDocument (f : Formatter) (options : Options) (store : Store) (entry : EntryPoint)
    (p : Path) : Outcome :=
  match withText store p (f.build options entry) with
  | .ok (_, d) => { stdout := d.dump 0 ++ "\n", store := store }
  | .error problem => fileError console store p problem

/-- Go on with the files that paths stand for. -/
def withFiles (store : Store) (paths : List Path) (proceed : List Path → Outcome) : Outcome :=
  match store.discover paths with
  | .error refusal => refused console store refusal
  | .ok files => proceed files

/-- Run over files that were found already. Whatever may be wrong with their paths now is not
provided for. -/
def runOver (f : Formatter) (options : Options) (write : Bool) (store : Store)
    (files : List Path) (report : Run → Outcome) : Outcome :=
  match store.formatPaths (f.format options .compilationUnit) write files with
  | .error (.missing p) => escape store (.fault ⟨.noEntry, p⟩)
  | .error (.fault f) => escape store (.fault f)
  | .ok run => report run

end Messages

/-- Do what is requested. Settings that are no options are an error in the use of
the arguments, and so is a file to be shown that does not exist. -/
def perform (console : Console) (validate : Validation) (f : Formatter)
    (environment : String → Option String) (store : Store) : Request → Result
  | .format paths write settings =>
    match validate (settings.withEnvironment environment) with
    | none => .usage
    | some options => .ended (withFiles console store paths fun files =>
        if write then runOver f options true store files (writeFormatted console)
        else printFormatted console f options store files)
  | .check paths settings =>
    match validate (settings.withEnvironment environment) with
    | none => .usage
    | some options => .ended (withFiles console store paths fun files =>
        runOver f options false store files (checkFormatted console))
  | .doc path entry settings =>
    match validate (settings.withEnvironment environment) with
    | none => .usage
    | some options =>
      if store.hasFile path then .ended (printDocument console f options store entry path)
      else .usage

/-- Do what arguments ask for. -/
def run (console : Console) (validate : Validation) (f : Formatter)
    (environment : String → Option String) (store : Store) (arguments : List String) : Result :=
  match Request.ofArguments? arguments with
  | some request => perform console validate f environment store request
  | none => .usage

end JavaFormat.Command
