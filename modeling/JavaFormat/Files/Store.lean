import JavaFormat.Files.Path
import JavaFormat.Text.Quoted

/-!
# Files

A store is what is on disk at one moment. Files are numbered; a file is at one location or,
if it has hard links, at several, a location being the list of the names from the root. It
may be that a file cannot be read or cannot be written. Besides files there are directories,
each of which can be entered and listed, and symbolic links. Two paths lead to the same
location if they resolve to the same one.
-/

namespace JavaFormat

/-- The names on the way from the root. -/
abbrev Location := List String

/-- What the operating system refuses to do. -/
inductive OsError where
  | noEntry
  | denied
  | notFolder
  | isFolder
  | nameTooLong
  | tooManyLinks
deriving DecidableEq, Repr

namespace OsError

/-- The number of an error. -/
def number : OsError → Nat
  | noEntry => 2
  | denied => 13
  | notFolder => 20
  | isFolder => 21
  | nameTooLong => 36
  | tooManyLinks => 40

/-- An error in the words of the operating system. -/
def words : OsError → String
  | noEntry => "No such file or directory"
  | denied => "Permission denied"
  | notFolder => "Not a directory"
  | isFolder => "Is a directory"
  | nameTooLong => "File name too long"
  | tooManyLinks => "Too many levels of symbolic links"

/-- Whether an error says that there is nothing at a path. The question whether there is
something has an answer then; with any other error it has none. -/
def isAbsence : OsError → Bool
  | noEntry | notFolder | tooManyLinks => true
  | _ => false

end OsError

/-- An error with the path that it is about. -/
structure PathFault where
  error : OsError
  path : Path
deriving DecidableEq, Repr

/-- The fault in words. -/
def PathFault.message (f : PathFault) : String :=
  "[Errno " ++ toString f.error.number ++ "] " ++ f.error.words ++ ": " ++
    Text.quote f.path.toString

/-- What a file holds, and what may be done with it. -/
structure File where
  bytes : List UInt8 := []
  readable : Bool := true
  writable : Bool := true
deriving DecidableEq, Repr

/-- Files, directories and links. -/
structure Store where
  /-- The locations that there are files at, each with the number of the file. -/
  names : List (Location × Nat)
  /-- The file of a number. -/
  file : Nat → File
  /-- Directories that need not hold anything. -/
  folders : List Location := []
  /-- Symbolic links, each with the path that it stands for. -/
  links : List (Location × Path) := []
  /-- The working directory. -/
  here : Location := []

namespace Store

/-- Files at one location each. -/
def ofFiles (files : List (Location × File)) (here : Location) : Store where
  names := files.zipIdx.map fun (entry, i) => (entry.1, i)
  file i := (files[i]?).elim {} (·.2)
  here := here

/-- The number of the file at a location. -/
def number? (s : Store) (l : Location) : Option Nat := (s.names.find? (·.1 == l)).map (·.2)

/-- The bytes of the file at a location. -/
def bytes? (s : Store) (l : Location) : Option (List UInt8) :=
  (s.number? l).map fun i => (s.file i).bytes

/-- Whether there is a file at a location. -/
def isFile (s : Store) (l : Location) : Bool := (s.number? l).isSome

/-- Whether a location is on the way to another one. -/
def isAbove (l below : Location) : Bool := l.isPrefixOf below && l != below

/-- Whether there is a directory at a location: it is said to be there, or
something is below it. -/
def isFolder (s : Store) (l : Location) : Bool :=
  l.isPrefixOf s.here || s.folders.any l.isPrefixOf || s.names.any (isAbove l ·.1) ||
    s.links.any (isAbove l ·.1)

/-- The path that the link at a location stands for, if there is one. -/
def link? (s : Store) (l : Location) : Option Path :=
  (s.links.find? (·.1 == l)).map (·.2)

/-- The number of bytes that a name may have. -/
def maxName : Nat := 255

/-- Why there is no way on from a location that is no directory: there is nothing, a name
that nothing can have, or a file. -/
def obstacle (s : Store) (l : Location) : OsError :=
  if s.isFile l then .notFolder
  else if (l.getLast?.getD "").utf8ByteSize ≤ maxName then .noEntry
  else .nameTooLong

/-- Follow names from a location up to the first link, and go on from there by `jump`,
which is given the directory of the link, its path and the names behind it. Only a
directory can be left; two dots lead to the directory above, and from the root to
the root. -/
def walk (s : Store) (jump : Location → Path → List String → Except OsError Location)
    (l : Location) : List String → Except OsError Location
  | [] => if s.isFolder l || s.isFile l then .ok l else .error (s.obstacle l)
  | part :: rest =>
    if !s.isFolder l then .error (s.obstacle l)
    else if part = ".." then s.walk jump l.dropLast rest
    else
      match s.link? (l ++ [part]) with
      | some target => jump l target rest
      | none => s.walk jump (l ++ [part]) rest

/-- Where a path starts, seen from a directory. -/
def origin (l : Location) (p : Path) : Location := if p.absolute then [] else l

/-- Follow names from a location through at most so many links. -/
def follow (s : Store) : Nat → Location → List String → Except OsError Location
  | 0 => s.walk fun _ _ _ => .error .tooManyLinks
  | budget + 1 =>
    s.walk fun l target rest => s.follow budget (origin l target) (target.parts ++ rest)

/-- The number of links that a path may lead through. -/
def maxLinks : Nat := 40

/-- The location that a path leads to, or why it leads nowhere. -/
def lookup (s : Store) (p : Path) : Except OsError Location :=
  s.follow maxLinks (origin s.here p) p.parts

/-- The location that a path leads to, if there is anything. -/
def resolve? (s : Store) (p : Path) : Option Location := (s.lookup p).toOption

/-- Whether a path leads to a file. -/
def hasFile (s : Store) (p : Path) : Bool := (s.resolve? p).any s.isFile

/-- What prevents an answer to the question whether there is something at a path. -/
def fault? (s : Store) (p : Path) : Option PathFault :=
  match s.lookup p with
  | .ok _ => none
  | .error e => if e.isAbsence then none else some ⟨e, p⟩

/-- The names that lead from a directory to each file and each link below it. A directory
that is linked there is not entered. -/
def below (s : Store) (l : Location) : List (List String) :=
  (s.names.map (·.1) ++ s.links.map (·.1)).filterMap fun m =>
    if isAbove l m then some (m.drop l.length) else none

/-- Read the file that a path leads to: its number and its bytes. -/
def read (s : Store) (p : Path) : Except OsError (Nat × List UInt8) :=
  match s.lookup p with
  | .error e => .error e
  | .ok l =>
    match s.number? l with
    | none => .error .isFolder
    | some i => if (s.file i).readable then .ok (i, (s.file i).bytes) else .error .denied

/-- Give the file of a number other contents, whatever its names are. -/
def put (s : Store) (i : Nat) (bytes : List UInt8) : Store :=
  { s with file := fun j => if j = i then { s.file i with bytes := bytes } else s.file j }

/-- Write the file of a number. -/
def write (s : Store) (i : Nat) (bytes : List UInt8) : Except OsError Store :=
  if (s.file i).writable then .ok (s.put i bytes) else .error .denied

end Store

end JavaFormat
