import JavaFormat.Proofs.Files.Discovery
import JavaFormat.Proofs.Files.Store
import Mathlib.Data.Nat.Find

/-!
# The sources that paths stand for

Without symbolic links discovery is told by three things: which files a path stands for
and by which names it leads to them, which path is the first to lead to a file, and the
order of paths. Each file that any of the paths stands for is found exactly once, as the
first of them spells it; and files that were found are found again, in the same order.
-/

namespace JavaFormat

/-! ## The order of paths -/

namespace Path

/-- Going nowhere leads nowhere else. -/
@[simp] theorem append_nil (p : Path) : p.append [] = p := by
  simp [append]

end Path

/-! ## The names of Java sources -/

/-- A name with something in front of a last dot, and behind it `java` in whatever case. -/
def IsJavaName (name : String) : Prop :=
  ∃ stem ending : List Char, stem ≠ [] ∧ ending.map Char.toLower = "java".toList ∧
    name.toList = stem ++ '.' :: ending

namespace Store

/-! ## Stores without links -/

/-- A file system without symbolic links. Nothing is both a file and a directory, and two
dots are the name of no file or directory. -/
structure Unlinked (s : Store) : Prop where
  links : s.links = []
  apart : ∀ l, s.isFile l = true → s.isFolder l = false
  proper : ∀ l, s.isFile l = true → ".." ∉ l

variable {s : Store}

/-- Following a path that leads through no link. -/
abbrev walkPlain (s : Store) : Location → List String → Except OsError Location :=
  s.walk fun _ _ _ => .error .noEntry

/-- Without links nothing is a link. -/
theorem Unlinked.link?_eq (hs : s.Unlinked) (l : Location) : s.link? l = none := by
  simp [link?, hs.links]

/-- Without links a walk goes from folder to folder. -/
theorem Unlinked.walk_eq (hs : s.Unlinked)
    (jump : Location → Path → List String → Except OsError Location) (l : Location)
    (parts : List String) : s.walk jump l parts = s.walkPlain l parts := by
  induction parts generalizing l with
  | nil => rfl
  | cons part rest ih => simp only [walkPlain, walk, hs.link?_eq, ih]

/-- A path leads by some names to a file that it stands for. -/
inductive Reaches (s : Store) (p : Path) : List String → Location → Prop
  /-- A path that names a file stands for that file, whatever its name. -/
  | named {l : Location} (hp : s.resolve? p = some l) (hfile : s.isFile l = true) :
    s.Reaches p [] l
  /-- A directory stands for the Java sources below it, unless a directory between it and
  the source is skipped. -/
  | below {l : Location} {folders : List String} {name : String} (hp : s.resolve? p = some l)
      (hfolder : s.isFolder l = true) (hfile : s.isFile (l ++ (folders ++ [name])) = true)
      (hjava : IsJavaName name) (hway : ∀ folder ∈ folders, folder ∉ skippedFolders) :
    s.Reaches p (folders ++ [name]) (l ++ (folders ++ [name]))

/-- What a path below a directory reaches is a file. -/
theorem Reaches.isFile {p : Path} {names : List String} {l : Location} (h : s.Reaches p names l) :
    s.isFile l = true := by
  cases h with
  | named hp hfile => exact hfile
  | below hp hfolder hfile hjava hway => exact hfile

/-- The path of the given number is the first one that stands for the file at a location,
and it finds the file as `q`. -/
def FirstReached (s : Store) (paths : List Path) (i : Nat) (q : Path) (l : Location) : Prop :=
  ∃ p names, paths[i]? = some p ∧ s.Reaches p names l ∧ q = p.append names ∧
    ∀ j < i, ∀ earlier, paths[j]? = some earlier → ∀ names', ¬ s.Reaches earlier names' l

/-- The numbers of the first paths that stand for two files put the files into order; for
files of one path it is the order of paths. -/
def Before (s : Store) (paths : List Path) (q r : Path) : Prop :=
  ∀ i j l m, s.FirstReached paths i q l → s.FirstReached paths j r m →
    i < j ∨ i = j ∧ q.components < r.components

/-- The files that some paths stand for. -/
structure Enumerated (s : Store) (paths files : List Path) : Prop where
  /-- Each file is found by the first path that stands for it. -/
  mem_iff : ∀ q, q ∈ files ↔ ∃ i l, s.FirstReached paths i q l
  /-- Just the files that some path stands for are led to. -/
  covers : ∀ l, some l ∈ files.map s.resolve? ↔ ∃ p ∈ paths, ∃ names, s.Reaches p names l
  /-- No two lead to the same file. -/
  nodup : (files.map s.resolve?).Nodup
  /-- They come in the order of the paths that find them, and those of one directory in the
  order of paths. -/
  ordered : files.Pairwise (s.Before paths)

end Store

end JavaFormat
