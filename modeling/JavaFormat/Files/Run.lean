import JavaFormat.Error
import JavaFormat.Files.Discovery

/-!
# Formatting files

Files are formatted one after the other, each report telling what became of one
file. A file that cannot be read or formatted is reported and left as it is; a file that
cannot be written ends the run. Formatting is a parameter here: a function from a text to
a text or an error.
-/

namespace JavaFormat

/-- Formatting of a text. -/
abbrev Formatting := String → Except FormatError String

/-- What goes wrong with a file. -/
inductive FileProblem where
  /-- It cannot be read or written. -/
  | fault (f : PathFault)
  /-- Its text cannot be formatted, or it holds no text. -/
  | failed (e : FormatError)
deriving DecidableEq, Repr

namespace FileProblem

/-- The problem in words. -/
def message : FileProblem → String
  | fault f => f.message
  | failed e => e.message

/-- The place in the file that the problem points at: line and column. -/
def position? : FileProblem → Option (Nat × Nat)
  | failed (.syntaxError e) => some (e.line, e.column)
  | _ => none

/-- Whether a problem is an error of formatting. -/
def isReported : FileProblem → Bool
  | fault _ => false
  | failed e => e.isReported

/-- Whether a problem that is met while a file is read and formatted is reported and the next
file gone on with: it is an error of formatting, or the file cannot be read or is not UTF-8.
Any other problem ends the run. -/
def isCaught : FileProblem → Bool
  | fault _ => true
  | failed (.undecodable _) => true
  | failed e => e.isReported

end FileProblem

/-- What became of a file. -/
structure FileReport where
  path : Path
  /-- Whether formatting changes the file. -/
  changed : Bool := false
  problem : Option FileProblem := none
deriving DecidableEq, Repr

/-- What became of a run over some files. -/
structure Run where
  reports : List FileReport
  /-- The problem that ended the run. -/
  escaped : Option FileProblem
  /-- What is on disk afterwards. -/
  store : Store

/-- What formatting the bytes of a file comes to: other bytes, if it changes them. -/
def reformat (format : Formatting) (bytes : List UInt8) :
    Except FormatError (Option (List UInt8)) :=
  match Text.Utf8.decode bytes with
  | .error d => .error (.undecodable d)
  | .ok text =>
    match format text with
    | .error e => .error e
    | .ok formatted =>
      .ok (if formatted = text then none else some (Text.Utf8.encode formatted))

/-- Format one file, and write it if `write` is set. -/
def Store.formatFile (s : Store) (format : Formatting) (write : Bool) (p : Path) :
    Except FileProblem FileReport × Store :=
  match s.read p with
  | .error e => (.ok { path := p, problem := some (.fault ⟨e, p⟩) }, s)
  | .ok (i, bytes) =>
    match reformat format bytes with
    | .ok none => (.ok { path := p }, s)
    | .ok (some changed) =>
      if write then
        match s.write i changed with
        | .ok s' => (.ok { path := p, changed := true }, s')
        | .error e => (.error (.fault ⟨e, p⟩), s)
      else (.ok { path := p, changed := true }, s)
    | .error e =>
      let problem := .failed e
      if problem.isCaught then (.ok { path := p, problem := some problem }, s)
      else (.error problem, s)

/-- Format files one after the other. -/
def Store.formatAll (s : Store) (format : Formatting) (write : Bool) : List Path → Run
  | [] => ⟨[], none, s⟩
  | p :: ps =>
    match s.formatFile format write p with
    | (.error problem, s') => ⟨[], some problem, s'⟩
    | (.ok report, s') =>
      let rest := s'.formatAll format write ps
      { rest with reports := report :: rest.reports }

/-- Format the files that paths stand for. If there are none because of a path, no file is
touched. -/
def Store.formatPaths (s : Store) (format : Formatting) (write : Bool) (paths : List Path) :
    Except Refusal Run :=
  match s.discover paths with
  | .error refusal => .error refusal
  | .ok files => .ok (s.formatAll format write files)

/-- React to changed paths: the Java sources among them are formatted in the order
of their paths and written. -/
def Store.onChange (s : Store) (format : Formatting) (changed : List Path) :
    Except PathFault Run :=
  let named := changed.eraseDups.filter Path.isJava
  match named.findSome? s.fault? with
  | some fault => .error fault
  | none => .ok (s.formatAll format true (Text.sort Path.le (named.filter s.hasFile)))

end JavaFormat
