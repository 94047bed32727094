import JavaFormat.Files.Store
import JavaFormat.Text.Sorting

/-!
# Finding sources

A directory stands for the Java sources below it, in the order of their paths; a
file that is named stands for itself, whatever its name. Some directories are
never searched, unless they are named. No file is found twice, whatever paths
lead to it.
-/

namespace JavaFormat

/-- Directories that hold no sources of their own. -/
def skippedFolders : List String :=
  [".git", ".hg", ".svn", ".gradle", ".idea", "build", "target", "node_modules"]

/-- Why no files are found. -/
inductive Refusal where
  /-- There is nothing at the path. -/
  | missing (p : Path)
  /-- It cannot be told whether there is something. -/
  | fault (f : PathFault)
deriving DecidableEq, Repr

namespace Store

/-- Whether a file below a directory is looked for: it is a Java source, and no
directory on the way to it is skipped. -/
def isSought (below : List String) : Bool :=
  Path.isJava ⟨false, below⟩ && !below.dropLast.any skippedFolders.contains

/-- The paths of the files and links below a directory that a path leads to. -/
def listing (s : Store) (p : Path) : List Path :=
  match s.resolve? p with
  | some l => if s.isFolder l then (s.below l).map p.append else []
  | none => []

/-- The files that a path stands for. If it leads to a directory, everything below has to
be looked at. -/
def candidates (s : Store) (p : Path) : Except Refusal (List Path) :=
  match s.lookup p with
  | .error e => .error (if e.isAbsence then .missing p else .fault ⟨e, p⟩)
  | .ok l =>
    if s.isFolder l then
      match (s.listing p).findSome? s.fault? with
      | some fault => .error (.fault fault)
      | none =>
        let sought := (s.below l).filter fun names => s.hasFile (p.append names) && isSought names
        .ok (Text.sort Path.le (sought.map p.append))
    else .ok [p]

/-- The paths that do not lead to a location seen before, and the locations seen
after them. -/
def unseen (s : Store) (seen : List (Option Location)) :
    List Path → List Path × List (Option Location)
  | [] => ([], seen)
  | p :: ps =>
    let l := s.resolve? p
    if seen.contains l then s.unseen seen ps
    else
      let (rest, seen') := s.unseen (l :: seen) ps
      (p :: rest, seen')

/-- The files that paths stand for and that were not seen before, or why there are none. -/
def discoverAfter (s : Store) (seen : List (Option Location)) :
    List Path → Except Refusal (List Path)
  | [] => .ok []
  | p :: ps =>
    match s.candidates p with
    | .error refusal => .error refusal
    | .ok found =>
      let (fresh, seen') := s.unseen seen found
      match s.discoverAfter seen' ps with
      | .ok rest => .ok (fresh ++ rest)
      | .error refusal => .error refusal

/-- The files that paths stand for, or why there are none. -/
def discover (s : Store) (paths : List Path) : Except Refusal (List Path) :=
  s.discoverAfter [] paths

end Store

/-- That a path leads nowhere, in words. -/
def Path.missingMessage (p : Path) : String := "No such file or directory: " ++ p.toString

end JavaFormat
