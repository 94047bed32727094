import JavaFormat.Files.Run
import Mathlib.Data.List.Nodup

/-!
# What writing a file leaves as it is

A write changes the bytes of one file and nothing else: every path leads where it led before,
through the same links, all other files keep their bytes, and what can be read or written
stays so. What formatting a file comes to depends only on the file that its path leads to.
-/

namespace JavaFormat

/-- A run goes on after every error of formatting. -/
theorem FileProblem.isCaught_of_isReported {e : FileProblem} (h : e.isReported = true) :
    e.isCaught = true := by
  cases e with
  | fault f => rfl
  | failed e => cases e <;> first | rfl | exact h

namespace Store

variable {s t : Store}

/-! ## Names -/

/-- Two stores with the same files, directories and links, whatever the files hold. -/
structure SameNames (s t : Store) : Prop where
  names : t.names = s.names
  folders : t.folders = s.folders
  links : t.links = s.links
  here : t.here = s.here
  readable : ∀ i, (t.file i).readable = (s.file i).readable
  writable : ∀ i, (t.file i).writable = (s.file i).writable

/-- A store has its own names. -/
theorem SameNames.refl (s : Store) : SameNames s s :=
  ⟨rfl, rfl, rfl, rfl, fun _ => rfl, fun _ => rfl⟩

/-- What has the names of a store with the names of another one has the names of that one. -/
theorem SameNames.trans {u : Store} (h : SameNames s t) (h' : SameNames t u) : SameNames s u where
  names := h'.names.trans h.names
  folders := h'.folders.trans h.folders
  links := h'.links.trans h.links
  here := h'.here.trans h.here
  readable i := (h'.readable i).trans (h.readable i)
  writable i := (h'.writable i).trans (h.writable i)

/-- There are files of the same numbers at the same locations. -/
theorem SameNames.number?_eq (h : SameNames s t) (l : Location) : t.number? l = s.number? l := by
  rw [number?, number?, h.names]

/-- The way along some names is the same in both stores, whatever comes at a link. -/
theorem SameNames.walk_eq (h : SameNames s t)
    (jump : Location → Path → List String → Except OsError Location) (l : Location)
    (parts : List String) : t.walk jump l parts = s.walk jump l parts := by
  have hfile : t.isFile = s.isFile := by
    funext l
    rw [isFile, isFile, h.number?_eq]
  have hfolder : t.isFolder = s.isFolder := by
    funext l
    rw [isFolder, isFolder, h.names, h.folders, h.links, h.here]
  have hlink : t.link? = s.link? := by
    funext l
    rw [link?, link?, h.links]
  have hobstacle : t.obstacle = s.obstacle := by
    funext l
    rw [obstacle, obstacle, hfile]
  induction parts generalizing l with
  | nil => simp only [walk, hfile, hfolder, hobstacle]
  | cons part rest ih => simp only [walk, hfolder, hlink, hobstacle, ih]

/-- The way along some names through links is the same in both stores. -/
theorem SameNames.follow_eq (h : SameNames s t) (budget : Nat) (l : Location)
    (parts : List String) : t.follow budget l parts = s.follow budget l parts := by
  induction budget generalizing l parts with
  | zero => rw [follow, follow, h.walk_eq]
  | succ budget ih =>
    rw [follow, follow, h.walk_eq]
    simp only [ih]

/-- Every path leads to the same location in both stores, or nowhere for the same reason. -/
theorem SameNames.lookup_eq (h : SameNames s t) (p : Path) : t.lookup p = s.lookup p := by
  rw [lookup, lookup, h.follow_eq, h.here]

/-! ## The file that a path leads to -/

/-- A path that leads to a location is led there by the lookup. -/
theorem resolve?_eq_some_iff {p : Path} {l : Location} :
    s.resolve? p = some l ↔ s.lookup p = .ok l := by
  rw [resolve?]
  cases s.lookup p <;> simp [Except.toOption]

/-- The number of the file that a path leads to. -/
def fileAt? (s : Store) (p : Path) : Option Nat := (s.resolve? p).bind s.number?

/-- A path leads to the same file in both stores. -/
theorem SameNames.fileAt?_eq (h : SameNames s t) (p : Path) : t.fileAt? p = s.fileAt? p := by
  rw [fileAt?, fileAt?, resolve?, resolve?, h.lookup_eq]
  exact Option.bind_congr fun l _ => h.number?_eq l

/-- What is read by a path are the bytes of the file that it leads to, if it can be read. -/
theorem read_eq_ok_iff {p : Path} {i : Nat} {bytes : List UInt8} :
    s.read p = .ok (i, bytes) ↔
      s.fileAt? p = some i ∧ (s.file i).readable = true ∧ (s.file i).bytes = bytes := by
  rw [read, fileAt?, resolve?]
  cases s.lookup p with
  | error e => simp [Except.toOption]
  | ok l =>
    cases hnumber : s.number? l with
    | none => simp [Except.toOption, hnumber]
    | some j =>
      cases hreadable : (s.file j).readable with
      | false =>
        simp only [Except.toOption, Option.bind_some, hnumber, hreadable]
        simp only [Bool.false_eq_true, ↓reduceIte, reduceCtorEq, Option.some.injEq, false_iff]
        rintro ⟨rfl, hi, -⟩
        rw [hreadable] at hi
        cases hi
      | true =>
        simp only [Except.toOption, Option.bind_some, hnumber, hreadable]
        simp only [↓reduceIte, Except.ok.injEq, Prod.mk.injEq, Option.some.injEq]
        constructor
        · rintro ⟨rfl, rfl⟩
          exact ⟨rfl, hreadable, rfl⟩
        · rintro ⟨rfl, -, rfl⟩
          exact ⟨rfl, rfl⟩

/-- What is read by a path is the same in both stores if the file that it leads to is. -/
theorem SameNames.read_eq (h : SameNames s t) {p : Path}
    (hfile : ∀ i, s.fileAt? p = some i → t.file i = s.file i) : t.read p = s.read p := by
  rw [read, read, h.lookup_eq]
  cases hlookup : s.lookup p with
  | error e => rfl
  | ok l =>
    dsimp only
    rw [h.number?_eq]
    cases hnumber : s.number? l with
    | none => rfl
    | some i =>
      have hat : s.fileAt? p = some i := by
        rw [fileAt?, resolve?, hlookup]
        exact hnumber
      dsimp only
      rw [hfile i hat]

/-! ## Writing -/

/-- Writing gives one file other bytes. -/
@[simp] theorem file_put_self (s : Store) (i : Nat) (bytes : List UInt8) :
    (s.put i bytes).file i = { s.file i with bytes := bytes } := by
  simp [put]

/-- Writing leaves all other files as they are. -/
theorem file_put_of_ne {i j : Nat} (h : j ≠ i) (s : Store) (bytes : List UInt8) :
    (s.put i bytes).file j = s.file j := by
  simp [put, h]

/-- Writing a file neither adds nor removes a name. -/
theorem sameNames_put (s : Store) (i : Nat) (bytes : List UInt8) : SameNames s (s.put i bytes) where
  names := rfl
  folders := rfl
  links := rfl
  here := rfl
  readable j := by
    by_cases hj : j = i
    · rw [hj, file_put_self]
    · rw [file_put_of_ne hj]
  writable j := by
    by_cases hj : j = i
    · rw [hj, file_put_self]
    · rw [file_put_of_ne hj]

/-! ## Formatting one file -/

variable (format : Formatting)

/-- What is reported of a file. -/
def report (s : Store) (p : Path) : Except FileProblem FileReport := (s.formatFile format false p).1

/-- The bytes that formatting gives a file, if it can be read and formatting changes it. -/
def changed? (file : File) : Option (List UInt8) :=
  if file.readable then (reformat format file.bytes).toOption.join else none

/-- The file that formatting changes, with its new bytes. -/
def change? (s : Store) (p : Path) : Option (Nat × List UInt8) :=
  (s.fileAt? p).bind fun i => (changed? format (s.file i)).map (i, ·)

/-- Write a change, if there is one. -/
def apply (s : Store) : Option (Nat × List UInt8) → Except OsError Store
  | some (i, bytes) => s.write i bytes
  | none => .ok s

/-- Formatting a file without writing it leaves everything as it is. -/
theorem formatFile_false (s : Store) (p : Path) :
    s.formatFile format false p = (s.report format p, s) := by
  rw [report, formatFile]
  cases s.read p with
  | error e => rfl
  | ok file =>
    cases hformat : reformat format file.2 with
    | error e => cases hcaught : (FileProblem.failed e).isCaught <;> simp [hformat, hcaught]
    | ok changed => cases changed <;> simp [hformat]

/-- What is read by a path is the file that it leads to, if that can be read. -/
theorem read_eq (s : Store) (p : Path) :
    (∃ e, s.read p = .error e ∧ s.change? format p = none) ∨
      ∃ i, s.read p = .ok (i, (s.file i).bytes) ∧
        s.change? format p = (reformat format (s.file i).bytes).toOption.join.map (i, ·) := by
  cases hread : s.read p with
  | ok file =>
    obtain ⟨hat, hreadable, hbytes⟩ := read_eq_ok_iff.mp hread
    refine .inr ⟨file.1, by rw [hbytes], ?_⟩
    rw [change?, hat, Option.bind_some, changed?, if_pos hreadable]
  | error e =>
    refine .inl ⟨e, rfl, ?_⟩
    rw [change?, Option.bind_eq_none_iff]
    intro i hat
    rw [changed?]
    split
    · rename_i hreadable
      rw [read_eq_ok_iff.mpr ⟨hat, hreadable, rfl⟩] at hread
      cases hread
    · rfl

/-- Formatting a file in place is reporting on it and writing what has changed. A change that
cannot be written is all that is told of the file. -/
theorem formatFile_true (s : Store) (p : Path) : s.formatFile format true p =
    match s.apply (s.change? format p) with
    | .ok s' => (s.report format p, s')
    | .error e => (.error (.fault ⟨e, p⟩), s) := by
  rw [report, formatFile, formatFile]
  rcases s.read_eq format p with ⟨e, hread, hchange⟩ | ⟨i, hread, hchange⟩
  · simp [hread, hchange, apply]
  · rw [hread, hchange]
    cases hformat : reformat format (s.file i).bytes with
    | error e =>
      cases hcaught : (FileProblem.failed e).isCaught <;>
        simp [apply, hformat, hcaught, Except.toOption]
    | ok changed =>
      cases changed with
      | none => simp [apply, hformat, Except.toOption]
      | some new =>
        simp only [hformat, Except.toOption, Option.join_some, Option.map_some, apply]
        cases s.write i new <;> rfl

/-- What is reported of a file depends on the file that its path leads to. -/
theorem report_congr {p : Path} (h : t.read p = s.read p) : t.report format p = s.report format p := by
  rw [report, report, formatFile, formatFile, h]
  cases s.read p with
  | error e => rfl
  | ok file =>
    cases hformat : reformat format file.2 with
    | error e => cases hcaught : (FileProblem.failed e).isCaught <;> simp [hformat, hcaught]
    | ok changed => cases changed <;> simp [hformat]

/-- What is written to a file depends on the file that its path leads to. -/
theorem SameNames.change?_eq (h : SameNames s t) {p : Path}
    (hfile : ∀ i, s.fileAt? p = some i → t.file i = s.file i) :
    t.change? format p = s.change? format p := by
  rw [change?, change?, h.fileAt?_eq]
  exact Option.bind_congr fun i hi => by rw [hfile i hi]

end Store

end JavaFormat
