import JavaFormat.Proofs.Files.Discovery
import JavaFormat.Proofs.Files.Store
import Mathlib.Logic.Relation

/-!
# Files are formatted independently of each other

No location is found twice, so unless files have several names no file is read again after it
was rewritten. Whatever the order in which the files of a run are read and written, what is
reported of each file and what it holds afterwards is what formatting it alone would have
given. Formatting the files one after the other is one such order, up to the first file that
is to be rewritten and cannot be written: there the run ends.
-/

namespace JavaFormat

/-! ## Jobs -/

/-- How far a file has got. -/
inductive Stage where
  | waiting
  /-- It has been read and formatted, and may have to be written. -/
  | examined (report : Except FileProblem FileReport) (change : Option (Nat × List UInt8))
  | finished (report : Except FileProblem FileReport)

/-- A file to be formatted. -/
structure Job where
  path : Path
  stage : Stage := .waiting

/-- The report on a file that is done with. -/
def Job.report? (j : Job) : Option (Except FileProblem FileReport) :=
  match j.stage with
  | .finished report => some report
  | _ => none

/-- Files being formatted by any number of workers, and what is on disk. -/
structure Pool where
  store : Store
  jobs : List Job

namespace Pool

/-- The files that a run begins with. -/
def start (s : Store) (files : List Path) : Pool := ⟨s, files.map fun p => { path := p }⟩

variable (format : Formatting) (write : Bool)

/-- A worker reads one of the files that are waiting, or is done with one that it has
read, and writes it if it is to be written. It is never done with a file that it cannot
write. -/
inductive Step : Pool → Pool → Prop
  | examine (s : Store) (front back : List Job) (p : Path) :
    Step ⟨s, front ++ ⟨p, .waiting⟩ :: back⟩
      ⟨s, front ++ ⟨p, .examined (s.report format p) (s.change? format p)⟩ :: back⟩
  | finish (s s' : Store) (front back : List Job) (p : Path)
      (report : Except FileProblem FileReport) (change : Option (Nat × List UInt8))
      (hwrite : (if write then s.apply change else .ok s) = .ok s') :
    Step ⟨s, front ++ ⟨p, .examined report change⟩ :: back⟩
      ⟨s', front ++ ⟨p, .finished report⟩ :: back⟩

/-- Any number of steps. -/
abbrev Steps : Pool → Pool → Prop := Relation.ReflTransGen (Step format write)

end Pool

/-! ## What a run preserves -/

namespace Store

variable (format : Formatting) {s t t' : Store}

/-- A file when it has been formatted. -/
def formatted (file : File) : File :=
  { file with bytes := (changed? format file).getD file.bytes }

/-- Writing a change leaves all names as they are. -/
theorem sameNames_apply {change : Option (Nat × List UInt8)} (h : t.apply change = .ok t') :
    SameNames t t' := by
  cases change with
  | none => exact Except.ok.inj h ▸ .refl t
  | some change =>
    rw [apply, write] at h
    split at h
    · exact Except.ok.inj h ▸ t.sameNames_put change.1 change.2
    · cases h

/-- Writing the change of a file that is as it was formats this file and leaves all others as
they are. -/
theorem file_apply_change {p : Path} (hkept : ∀ i, s.fileAt? p = some i → t.file i = s.file i)
    (h : t.apply (s.change? format p) = .ok t') (j : Nat) :
    t'.file j = if s.fileAt? p = some j then formatted format (s.file j) else t.file j := by
  rw [change?] at h
  cases hat : s.fileAt? p with
  | none =>
    rw [hat] at h
    obtain rfl := Except.ok.inj h
    simp
  | some i =>
    rw [hat, Option.bind_some] at h
    have hi := hkept i hat
    cases hchanged : changed? format (s.file i) with
    | none =>
      rw [hchanged] at h
      obtain rfl := Except.ok.inj h
      split
      · rename_i heq
        obtain rfl := Option.some.inj heq
        rw [formatted, hchanged, hi]
        rfl
      · rfl
    | some new =>
      rw [hchanged, Option.map_some, apply, write] at h
      split at h
      · obtain rfl := Except.ok.inj h
        split
        · rename_i heq
          obtain rfl := Option.some.inj heq
          rw [file_put_self, formatted, hchanged, hi]
          rfl
        · rename_i hne
          exact file_put_of_ne (fun hj => hne (by rw [hj])) t new
      · cases h

/-- What has been written can be written. -/
theorem writable_of_apply {change : Option (Nat × List UInt8)} (h : t.apply change = .ok t')
    {i : Nat} {new : List UInt8} (hchange : change = some (i, new)) :
    (t.file i).writable = true := by
  subst hchange
  rw [apply, write] at h
  split at h
  · assumption
  · cases h

end Store

/-- A job that has done to its file what is to be done with it alone. -/
structure Job.Sound (format : Formatting) (write : Bool) (s t : Store) (j : Job) : Prop where
  file : ∀ i, s.fileAt? j.path = some i → t.file i =
    if write = true ∧ j.report?.isSome then Store.formatted format (s.file i) else s.file i
  examined : ∀ report change, j.stage = .examined report change →
    report = s.report format j.path ∧ change = s.change? format j.path
  finished : ∀ report, j.stage = .finished report → report = s.report format j.path ∧
    (write = true → ∀ i new, s.change? format j.path = some (i, new) →
      (s.file i).writable = true)

namespace Job.Sound

variable {format : Formatting} {write : Bool} {s t t' : Store} {p : Path}

/-- The file of a job that is not done with is as it was. -/
theorem file_eq {stage : Stage} (h : Job.Sound format write s t ⟨p, stage⟩)
    (hopen : Job.report? ⟨p, stage⟩ = none) {i : Nat} (hi : s.fileAt? p = some i) :
    t.file i = s.file i := by
  rw [h.file i hi, hopen]
  simp

/-- A job is still sound if its file is left alone. -/
theorem of_file_eq {j : Job} (h : j.Sound format write s t)
    (hfile : ∀ i, s.fileAt? j.path = some i → t'.file i = t.file i) :
    j.Sound format write s t' where
  file i hi := (hfile i hi).trans (h.file i hi)
  examined := h.examined
  finished := h.finished

/-- What is read and formatted is what the file was. -/
theorem examine (h : Job.Sound format write s t ⟨p, .waiting⟩) (hnames : s.SameNames t) :
    Job.Sound format write s t ⟨p, .examined (t.report format p) (t.change? format p)⟩ := by
  refine ⟨h.file, ?_, by simp⟩
  rintro report change ⟨⟩
  have hfile : ∀ i, s.fileAt? p = some i → t.file i = s.file i := fun i hi => h.file_eq rfl hi
  exact ⟨Store.report_congr format (hnames.read_eq hfile), hnames.change?_eq format hfile⟩

variable {report : Except FileProblem FileReport} {change : Option (Nat × List UInt8)}
  (h : Job.Sound format write s t ⟨p, .examined report change⟩)
  (hwrite : (if write then t.apply change else .ok t) = .ok t')

include h hwrite

/-- Being done with a file leaves all names as they are, and all files but this one. -/
theorem file_write : t.SameNames t' ∧ ∀ i, t'.file i =
    if write = true ∧ s.fileAt? p = some i then Store.formatted format (s.file i)
    else t.file i := by
  have hchange : change = s.change? format p := (h.examined report change rfl).2
  cases write with
  | false =>
    obtain rfl := Except.ok.inj hwrite
    exact ⟨.refl t, by simp⟩
  | true =>
    rw [hchange] at hwrite
    exact ⟨Store.sameNames_apply hwrite, by
      simpa using Store.file_apply_change format (fun i hi => h.file_eq rfl hi) hwrite⟩

/-- A file that is done with holds what it would have come to alone. -/
theorem finish (hnames : s.SameNames t) : Job.Sound format write s t' ⟨p, .finished report⟩ := by
  obtain ⟨-, hfile⟩ := h.file_write hwrite
  obtain ⟨hreport, hchange⟩ := h.examined report change rfl
  refine ⟨fun i hi => ?_, by simp, ?_⟩
  · rw [hfile, h.file_eq rfl hi]
    simp [hi, Job.report?]
  · rintro _ ⟨⟩
    refine ⟨hreport, ?_⟩
    rintro rfl i new hi
    rw [← hnames.writable i]
    exact Store.writable_of_apply hwrite (hchange.trans hi)

end Job.Sound

/-- A pool that has come from a store with some files to be formatted. -/
structure Pool.Sound (format : Formatting) (write : Bool) (s : Store) (files : List Path)
    (pool : Pool) : Prop where
  names : s.SameNames pool.store
  paths : pool.jobs.map Job.path = files
  jobs : ∀ j ∈ pool.jobs, j.Sound format write s pool.store
  others : ∀ i, (∀ p ∈ files, s.fileAt? p ≠ some i) → pool.store.file i = s.file i

namespace Pool

variable {format : Formatting} {write : Bool} {s : Store} {files : List Path}

/-- A pool that nothing has been done to is sound. -/
theorem sound_start (s : Store) (files : List Path) :
    (start s files).Sound format write s files := by
  refine ⟨.refl s, by simp [start, Function.comp_def], fun j hj => ?_, fun _ _ => rfl⟩
  obtain ⟨p, -, rfl⟩ := List.mem_map.mp hj
  exact ⟨by simp [Job.report?, start], by simp, by simp⟩

/-- The other jobs of a pool are on other files. -/
theorem fileAt?_ne_of_mem {front back : List Job} {j k : Job}
    (hnodup : ((front ++ j :: back).map fun j => s.fileAt? j.path).Nodup)
    (hk : k ∈ front ++ back) : s.fileAt? k.path ≠ s.fileAt? j.path := by
  have hperm : (front ++ j :: back).Perm (j :: (front ++ back)) := List.perm_middle
  have hcons := (hperm.map fun j => s.fileAt? j.path).nodup_iff.mp hnodup
  intro heq
  exact (List.nodup_cons.mp hcons).1 (List.mem_map.mpr ⟨k, hk, heq⟩)

/-- Reading and formatting a file that waits, and writing one that has been read, leave a
pool sound. -/
theorem Sound.step (hnodup : (files.map s.fileAt?).Nodup) {pool pool' : Pool}
    (h : pool.Sound format write s files) (hstep : Step format write pool pool') :
    pool'.Sound format write s files := by
  obtain ⟨hnames, hpaths, hjobs, hothers⟩ := h
  cases hstep with
  | examine t front back p =>
    rw [List.forall_mem_append, List.forall_mem_cons] at hjobs
    obtain ⟨hfront, hjob, hback⟩ := hjobs
    exact ⟨hnames, by simpa using hpaths, List.forall_mem_append.mpr
      ⟨hfront, List.forall_mem_cons.mpr ⟨hjob.examine hnames, hback⟩⟩, hothers⟩
  | finish t t' front back p report change hwrite =>
    have hdistinct : ((front ++ ⟨p, .examined report change⟩ :: back).map
        fun j => s.fileAt? j.path).Nodup := by
      rw [← hpaths, List.map_map] at hnodup
      exact hnodup
    rw [List.forall_mem_append, List.forall_mem_cons] at hjobs
    obtain ⟨hfront, hjob, hback⟩ := hjobs
    obtain ⟨hsame, hfile⟩ := hjob.file_write hwrite
    have hother : ∀ j ∈ front ++ back, j.Sound format write s t → j.Sound format write s t' := by
      intro j hj hsound
      refine hsound.of_file_eq fun i hi => ?_
      rw [hfile, if_neg fun h => fileAt?_ne_of_mem hdistinct hj (hi.trans h.2.symm)]
    refine ⟨hnames.trans hsame, by simpa using hpaths, List.forall_mem_append.mpr
      ⟨fun j hj => hother j (List.mem_append_left _ hj) (hfront j hj),
        List.forall_mem_cons.mpr ⟨hjob.finish hwrite hnames,
          fun j hj => hother j (List.mem_append_right _ hj) (hback j hj)⟩⟩, fun i hi => ?_⟩
    have hp : p ∈ files := by
      rw [← hpaths]
      simp
    rw [hfile, if_neg fun h => hi p hp h.2]
    exact hothers i hi

/-- A run leaves a pool sound. -/
theorem Sound.steps (hnodup : (files.map s.fileAt?).Nodup) {pool pool' : Pool}
    (h : pool.Sound format write s files) (hsteps : Steps format write pool pool') :
    pool'.Sound format write s files := by
  induction hsteps with
  | refl => exact h
  | tail _ hstep ih => exact ih.step hnodup hstep

/-- All files of a pool are done with. -/
def Done (pool : Pool) : Prop := ∀ j ∈ pool.jobs, j.report?.isSome

/-- The reports of a pool, in the order of its files. -/
def reports (pool : Pool) : List (Except FileProblem FileReport) :=
  pool.jobs.filterMap Job.report?

/-- A job that is done with is sound only if it has the report that its file would have had
alone, and the file could be written if it had to be. -/
theorem Sound.report?_eq {pool : Pool} (h : pool.Sound format write s files) (hdone : pool.Done)
    {j : Job} (hj : j ∈ pool.jobs) : j.report? = some (s.report format j.path) ∧
      (write = true → ∀ i new, s.change? format j.path = some (i, new) →
        (s.file i).writable = true) := by
  obtain ⟨report, hreport⟩ := Option.isSome_iff_exists.mp (hdone j hj)
  have hstage : j.stage = .finished report := by
    unfold Job.report? at hreport
    split at hreport
    · rename_i r hr
      rw [hr, Option.some.inj hreport]
    · cases hreport
  obtain ⟨heq, hwritable⟩ := (h.jobs j hj).finished report hstage
  exact ⟨by rw [hreport, heq], hwritable⟩

/-- When all files are done with, each has the report that it would have had alone. -/
theorem Sound.reports_eq {pool : Pool} (h : pool.Sound format write s files) (hdone : pool.Done) :
    pool.reports = files.map (s.report format) := by
  rw [reports, ← h.paths, List.map_map, List.filterMap_congr fun j hj => (h.report?_eq hdone hj).1]
  simp [Function.comp_def]

/-- When all files are done with, each could be written if it had to be. -/
theorem Sound.writable {pool : Pool} (h : pool.Sound format true s files) (hdone : pool.Done)
    {p : Path} (hp : p ∈ files) {i : Nat} {new : List UInt8}
    (hchange : s.change? format p = some (i, new)) : (s.file i).writable = true := by
  rw [← h.paths] at hp
  obtain ⟨j, hj, rfl⟩ := List.mem_map.mp hp
  exact (h.report?_eq hdone hj).2 rfl i new hchange

/-- When all files are done with, each is formatted if it is to be written, and nothing
else has changed. -/
theorem Sound.file_eq {pool : Pool} (h : pool.Sound format write s files) (hdone : pool.Done)
    (i : Nat) : pool.store.file i =
      if write = true ∧ ∃ p ∈ files, s.fileAt? p = some i then Store.formatted format (s.file i)
      else s.file i := by
  by_cases hi : ∃ p ∈ files, s.fileAt? p = some i
  · obtain ⟨p, hp, hpi⟩ := hi
    rw [← h.paths] at hp
    obtain ⟨j, hj, rfl⟩ := List.mem_map.mp hp
    rw [(h.jobs j hj).file i hpi]
    have hmem : ∃ p ∈ files, s.fileAt? p = some i := ⟨j.path, h.paths ▸ hp, hpi⟩
    simp only [hdone j hj, hmem]
  · rw [if_neg fun h => hi h.2]
    exact h.others i fun p hp hpi => hi ⟨p, hp, hpi⟩

end Pool

/-! ## What is changed -/

namespace Store

variable {format : Formatting} {write : Bool} {s : Store}

/-- A path leads to a file that can be read, and formatting changes its text. -/
def Changes (s : Store) (format : Formatting) (p : Path) (i : Nat) (formatted : String) : Prop :=
  s.fileAt? p = some i ∧ (s.file i).readable = true ∧ ∃ text,
    Text.Utf8.decode (s.file i).bytes = .ok text ∧ format text = .ok formatted ∧ formatted ≠ text

/-- A path leads to a file that formatting changes and that cannot be written. -/
def Blocked (s : Store) (format : Formatting) (p : Path) : Prop :=
  ∃ i formatted, s.Changes format p i formatted ∧ (s.file i).writable = false

/-- A store after some files were formatted: if they were to be written, those that
formatting changes hold the formatted text. Nothing else has changed. -/
structure Formatted (s : Store) (format : Formatting) (write : Bool) (files : List Path)
    (t : Store) : Prop where
  names : s.SameNames t
  changed : write = true → ∀ p ∈ files, ∀ i formatted, s.Changes format p i formatted →
    (t.file i).bytes = Text.Utf8.encode formatted
  kept : ∀ i, write = false ∨ (∀ p ∈ files, ∀ formatted, ¬ s.Changes format p i formatted) →
    t.file i = s.file i

/-- A run that has formatted some files in place, each as it would have been formatted alone,
and nothing else. -/
structure Completes (s : Store) (format : Formatting) (files : List Path) (run : Run) : Prop where
  reports : run.reports.map .ok = files.map fun p => (s.formatFile format true p).1
  store : s.Formatted format true files run.store

/-- What a run that formats some files in place comes to. -/
structure RunsTo (s : Store) (format : Formatting) (files : List Path) (run : Run) : Prop where
  /-- If no file is blocked, it completes them all. -/
  free : (∀ p ∈ files, ¬ s.Blocked format p) → run.escaped = none ∧ s.Completes format files run
  /-- The first file that is blocked ends the run. -/
  blocked : ∀ front p back, files = front ++ p :: back → (∀ q ∈ front, ¬ s.Blocked format q) →
    s.Blocked format p → run.escaped = some (.fault ⟨.denied, p⟩) ∧ s.Completes format front run

/-- Formatting changes a file if it changes the text that its bytes stand for. -/
theorem change?_eq_some_iff {p : Path} {i : Nat} {new : List UInt8} :
    s.change? format p = some (i, new) ↔
      ∃ formatted, s.Changes format p i formatted ∧ Text.Utf8.encode formatted = new := by
  have hchanged (file : File) : changed? format file = some new ↔
      file.readable = true ∧ ∃ text formatted, Text.Utf8.decode file.bytes = .ok text ∧
        format text = .ok formatted ∧ formatted ≠ text ∧ Text.Utf8.encode formatted = new := by
    rw [changed?, reformat]
    split
    · rename_i hreadable
      cases hdecode : Text.Utf8.decode file.bytes with
      | error d => simp [Except.toOption]
      | ok text =>
        cases hformat : format text with
        | error e => simp [hformat, Except.toOption]
        | ok formatted =>
          by_cases heq : formatted = text
          · simp [hformat, heq, Except.toOption]
          · simp [hformat, heq, hreadable, Except.toOption]
    · simp_all
  rw [change?, Option.bind_eq_some_iff]
  constructor
  · rintro ⟨j, hat, hmap⟩
    obtain ⟨new', hnew, heq⟩ := Option.map_eq_some_iff.mp hmap
    obtain ⟨rfl, rfl⟩ := Prod.mk.inj heq
    obtain ⟨hreadable, text, formatted, hdecode, hformat, hne, hencode⟩ := (hchanged _).mp hnew
    exact ⟨formatted, ⟨hat, hreadable, text, hdecode, hformat, hne⟩, hencode⟩
  · rintro ⟨formatted, ⟨hat, hreadable, text, hdecode, hformat, hne⟩, hencode⟩
    have hnew := (hchanged (s.file i)).mpr
      ⟨hreadable, text, formatted, hdecode, hformat, hne, hencode⟩
    exact ⟨i, hat, by rw [hnew, Option.map_some]⟩

/-- A file is blocked if its change cannot be written. -/
theorem blocked_iff {p : Path} : s.Blocked format p ↔
    s.apply (s.change? format p) = .error .denied := by
  constructor
  · rintro ⟨i, formatted, hchanges, hwritable⟩
    have hchange := change?_eq_some_iff.mpr ⟨formatted, hchanges, rfl⟩
    rw [hchange, apply, write, hwritable]
    rfl
  · intro h
    cases hchange : s.change? format p with
    | none =>
      rw [hchange] at h
      cases h
    | some change =>
      obtain ⟨formatted, hchanges, -⟩ := change?_eq_some_iff.mp hchange
      rw [hchange, apply, write] at h
      split at h
      · cases h
      · rename_i hwritable
        exact ⟨change.1, formatted, hchanges, by simpa using hwritable⟩

/-- A file that is formatted in place is blocked, or its change is written. -/
theorem formatFile_cases (s : Store) (p : Path) :
    (s.Blocked format p ∧ s.formatFile format true p = (.error (.fault ⟨.denied, p⟩), s)) ∨
      ∃ t, s.apply (s.change? format p) = .ok t ∧
        s.formatFile format true p = (s.report format p, t) := by
  rw [formatFile_true]
  cases happly : s.apply (s.change? format p) with
  | ok t => exact .inr ⟨t, rfl, rfl⟩
  | error e =>
    have hdenied : e = .denied := by
      unfold apply write at happly
      split at happly
      · split at happly
        · cases happly
        · exact (Except.error.inj happly).symm
      · cases happly
    subst hdenied
    exact .inl ⟨blocked_iff.mpr happly, rfl⟩

/-- A file that is not blocked is reported on, whether it is written or not. -/
theorem formatFile_of_not_blocked {p : Path} (h : ¬ s.Blocked format p) :
    (s.formatFile format true p).1 = s.report format p := by
  rcases s.formatFile_cases p with ⟨hblocked, -⟩ | ⟨t, -, hfile⟩
  · exact absurd hblocked h
  · rw [hfile]

/-- A pool that is done with its files has formatted them. -/
theorem formatted_of_done {files : List Path} {pool : Pool}
    (h : pool.Sound format write s files) (hdone : pool.Done) :
    s.Formatted format write files pool.store := by
  refine ⟨h.names, fun hwrite p hp i formatted hchanges => ?_, fun i hi => ?_⟩
  · have hchange := change?_eq_some_iff.mpr ⟨formatted, hchanges, rfl⟩
    rw [change?, hchanges.1, Option.bind_some] at hchange
    obtain ⟨new, hnew, heq⟩ := Option.map_eq_some_iff.mp hchange
    obtain ⟨-, rfl⟩ := Prod.mk.inj heq
    rw [h.file_eq hdone, if_pos ⟨hwrite, p, hp, hchanges.1⟩, Store.formatted, hnew]
    rfl
  · rw [h.file_eq hdone]
    split
    · rename_i hwritten
      obtain ⟨hwrite, p, hp, hpi⟩ := hwritten
      have hnone : changed? format (s.file i) = none := by
        rw [Option.eq_none_iff_forall_ne_some]
        intro new hnew
        have hchange : s.change? format p = some (i, new) := by
          rw [change?, hpi, Option.bind_some, hnew, Option.map_some]
        obtain ⟨formatted, hchanges, -⟩ := change?_eq_some_iff.mp hchange
        rcases hi with hi | hi
        · rw [hwrite] at hi
          cases hi
        · exact hi p hp formatted hchanges
      rw [Store.formatted, hnone]
      rfl
    · rfl

/-- Whether a file is blocked depends on the file that its path leads to. -/
theorem SameNames.blocked_iff {t : Store} (h : SameNames s t) {p : Path}
    (hfile : ∀ i, s.fileAt? p = some i → t.file i = s.file i) :
    t.Blocked format p ↔ s.Blocked format p := by
  refine exists_congr fun i => exists_congr fun formatted => ?_
  rw [Changes, Changes, h.fileAt?_eq]
  constructor
  · rintro ⟨⟨hat, hchanges⟩, hwritable⟩
    rw [hfile i hat] at hchanges hwritable
    exact ⟨⟨hat, hchanges⟩, hwritable⟩
  · rintro ⟨⟨hat, hchanges⟩, hwritable⟩
    rw [← hfile i hat] at hchanges hwritable
    exact ⟨⟨hat, hchanges⟩, hwritable⟩

end Store

/-! ## Formatting one file after the other -/

/-- A formatting whose errors are all errors of formatting. -/
def Formatting.Reported (format : Formatting) : Prop :=
  ∀ text e, format text = .error e → e.isReported = true

namespace Store

variable {format : Formatting} {s : Store}

/-- Whether bytes cannot be decoded or their text cannot be formatted, the run goes on. -/
theorem isCaught_of_reformat (h : format.Reported) {bytes : List UInt8} {e : FormatError}
    (he : reformat format bytes = .error e) : (FileProblem.failed e).isCaught = true := by
  unfold reformat at he
  cases hdecode : Text.Utf8.decode bytes with
  | error d =>
    obtain rfl : .undecodable d = e := by simpa [hdecode] using he
    rfl
  | ok text =>
    cases hformat : format text with
    | error e' =>
      obtain rfl : e' = e := by simpa [hdecode, hformat] using he
      have hreported := h text e' hformat
      unfold FileProblem.isCaught
      split
      · rfl
      · rfl
      · rename_i heq
        obtain rfl := FileProblem.failed.inj heq
        exact hreported
    | ok formatted => simp [hdecode, hformat] at he

/-- Every file is reported on. -/
theorem exists_report (h : format.Reported) (s : Store) (p : Path) :
    ∃ report, s.report format p = .ok report := by
  rw [report, formatFile]
  cases s.read p with
  | error e => exact ⟨_, rfl⟩
  | ok file =>
    cases hformat : reformat format file.2 with
    | error e =>
      refine ⟨{ path := p, problem := some (.failed e) }, ?_⟩
      simp [hformat, isCaught_of_reformat h hformat]
    | ok changed => cases changed <;> simp [hformat]

/-- If no file is written, each is reported on, and everything is left as it is. -/
theorem formatAll_false (h : format.Reported) (s : Store) (files : List Path) :
    (s.formatAll format false files).escaped = none ∧
      (s.formatAll format false files).reports.map .ok = files.map (s.report format) ∧
      (s.formatAll format false files).store = s := by
  induction files with
  | nil => exact ⟨rfl, rfl, rfl⟩
  | cons p ps ih =>
    obtain ⟨report, hreport⟩ := s.exists_report h p
    obtain ⟨hescaped, hreports, hstore⟩ := ih
    rw [formatAll, formatFile_false, hreport]
    exact ⟨hescaped, by rw [List.map_cons, hreports, List.map_cons, hreport], hstore⟩

/-- Formatting files in place one after the other is a run of the pool that is done with all
files up to the first that is blocked when it is its turn. -/
theorem exists_steps_formatAll (h : format.Reported) (front : List Job) (s : Store)
    (files : List Path) : ∃ done rest jobs, files = done ++ rest ∧
      Pool.Steps format true ⟨s, front ++ done.map fun p => { path := p }⟩
        ⟨(s.formatAll format true files).store, front ++ jobs⟩ ∧
      jobs.map Job.report? =
        (s.formatAll format true files).reports.map (fun report => some (.ok report)) ∧
      (s.formatAll format true files).escaped =
        rest.head?.map (fun p => .fault ⟨.denied, p⟩) ∧
      ∀ p ∈ rest.head?, (s.formatAll format true files).store.Blocked format p := by
  induction files generalizing s front with
  | nil => exact ⟨[], [], [], rfl, by simpa using .refl, rfl, rfl, by simp⟩
  | cons p ps ih =>
    rcases s.formatFile_cases p with ⟨hblocked, hfile⟩ | ⟨t, happly, hfile⟩
    · rw [formatAll, hfile]
      refine ⟨[], p :: ps, [], rfl, by simpa using .refl, rfl, rfl, ?_⟩
      rintro q ⟨⟩
      exact hblocked
    · obtain ⟨report, hreport⟩ := s.exists_report h p
      obtain ⟨done, rest, jobs, hfiles, hsteps, hjobs, hescaped, hrest⟩ :=
        ih (front ++ [⟨p, .finished (.ok report)⟩]) t
      rw [hreport] at hfile
      rw [formatAll, hfile]
      have hexamine : Pool.Step format true
          ⟨s, front ++ ⟨p, .waiting⟩ :: done.map fun p => { path := p }⟩
          ⟨s, front ++ ⟨p, .examined (s.report format p) (s.change? format p)⟩ ::
            done.map fun p => { path := p }⟩ := .examine s front _ p
      rw [hreport] at hexamine
      refine ⟨p :: done, rest, ⟨p, .finished (.ok report)⟩ :: jobs, by rw [hfiles]; rfl, ?_, ?_,
        hescaped, hrest⟩
      · refine .head hexamine (.head (.finish s t front _ p (.ok report) _ happly) ?_)
        simpa using hsteps
      · simp [hjobs, Job.report?]

/-! ## Runs -/

/-- Files that are formatted in place one after the other are formatted independently of each
other up to the first that is blocked. -/
theorem exists_completes_formatAll (h : format.Reported) {files : List Path}
    (hnodup : (files.map s.fileAt?).Nodup) : ∃ done rest, files = done ++ rest ∧
      (∀ p ∈ done, ¬ s.Blocked format p) ∧ (∀ p ∈ rest.head?, s.Blocked format p) ∧
      (s.formatAll format true files).escaped = rest.head?.map (fun p => .fault ⟨.denied, p⟩) ∧
      s.Completes format done (s.formatAll format true files) := by
  obtain ⟨done, rest, jobs, rfl, hsteps, hjobs, hescaped, hrest⟩ :=
    exists_steps_formatAll h [] s files
  rw [List.map_append, List.nodup_append] at hnodup
  have hsound := (Pool.sound_start s done).steps hnodup.1 hsteps
  have hdone : Pool.Done ⟨(s.formatAll format true (done ++ rest)).store, [] ++ jobs⟩ := by
    intro j hj
    have hmem : j.report? ∈ jobs.map Job.report? := List.mem_map_of_mem hj
    rw [hjobs] at hmem
    obtain ⟨report, -, hreport⟩ := List.mem_map.mp hmem
    rw [← hreport]
    rfl
  have hfree : ∀ p ∈ done, ¬ s.Blocked format p := by
    rintro p hp ⟨i, formatted, hchanges, hwritable⟩
    have hchange := change?_eq_some_iff.mpr ⟨formatted, hchanges, rfl⟩
    rw [hsound.writable hdone hp hchange] at hwritable
    cases hwritable
  have hreports : (s.formatAll format true (done ++ rest)).reports.map .ok =
      done.map (s.report format) := by
    rw [← hsound.reports_eq hdone, Pool.reports, List.nil_append]
    have hid : jobs.filterMap Job.report? = (jobs.map Job.report?).filterMap id := by
      rw [List.filterMap_map]
      rfl
    rw [hid, hjobs, List.filterMap_map]
    simp
  refine ⟨done, rest, rfl, hfree, fun p hp => ?_, hescaped, ?_, formatted_of_done hsound hdone⟩
  · refine (hsound.names.blocked_iff fun i hi => hsound.others i fun q hq hqi => ?_).mp (hrest p hp)
    have hp : p ∈ rest := List.mem_of_mem_head? hp
    exact hnodup.2.2 _ (List.mem_map_of_mem hq) _ (List.mem_map_of_mem hp) (hqi.trans hi.symm)
  · rw [hreports]
    exact List.map_congr_left fun p hp => (formatFile_of_not_blocked (hfree p hp)).symm

/-- Lists can be split in one way only at the first element that satisfies a predicate. -/
theorem eq_of_append_eq {α : Type} {P : α → Prop} {done rest front back : List α} {a : α}
    (hsplit : done ++ rest = front ++ a :: back) (hdone : ∀ b ∈ done, ¬ P b)
    (hrest : ∀ b ∈ rest.head?, P b) (hfront : ∀ b ∈ front, ¬ P b) (ha : P a) :
    done = front ∧ rest = a :: back := by
  induction done generalizing front with
  | nil =>
    cases front with
    | nil => exact ⟨rfl, hsplit⟩
    | cons b front =>
      obtain rfl : rest = b :: front ++ a :: back := hsplit
      exact absurd (hrest b rfl) (hfront b List.mem_cons_self)
  | cons b done ih =>
    cases front with
    | nil =>
      obtain ⟨rfl, -⟩ := List.cons.inj hsplit
      exact absurd ha (hdone b List.mem_cons_self)
    | cons c front =>
      obtain ⟨rfl, htail⟩ := List.cons.inj hsplit
      obtain ⟨rfl, hrest⟩ := ih htail (fun d hd => hdone d (List.mem_cons_of_mem _ hd))
        fun d hd => hfront d (List.mem_cons_of_mem _ hd)
      exact ⟨rfl, hrest⟩

/-- Formatting files in place one after the other gets to the first that is blocked. -/
theorem runsTo_formatAll (h : format.Reported) {files : List Path}
    (hnodup : (files.map s.fileAt?).Nodup) :
    s.RunsTo format files (s.formatAll format true files) := by
  obtain ⟨done, rest, hsplit, hdone, hrest, hescaped, hcompletes⟩ :=
    exists_completes_formatAll h hnodup
  refine ⟨fun hfree => ?_, fun front p back hfiles hfront hp => ?_⟩
  · cases rest with
    | nil =>
      rw [List.append_nil] at hsplit
      rw [← hsplit] at hcompletes
      exact ⟨hescaped, hcompletes⟩
    | cons p rest => exact absurd (hrest p rfl) (hfree p (by simp [hsplit]))
  · obtain ⟨rfl, rfl⟩ := eq_of_append_eq (hsplit.symm.trans hfiles) hdone hrest hfront hp
    exact ⟨hescaped, hcompletes⟩

/-- A list without repetitions is left as it is. -/
theorem eraseDups_of_nodup {ps : List Path} (h : ps.Nodup) : ps.eraseDups = ps := by
  induction ps with
  | nil => rfl
  | cons p ps ih =>
    obtain ⟨hp, hps⟩ := List.nodup_cons.mp h
    have hothers : ps.filter (fun q => !q == p) = ps := by
      rw [List.filter_eq_self]
      intro q hq
      have hne : q ≠ p := fun heq => hp (heq ▸ hq)
      simpa using hne
    rw [List.eraseDups_cons, hothers, ih hps]

/-- Reacting to changed paths is formatting those that are Java sources in their order. -/
theorem onChange_eq {changed : List Path} (hnodup : changed.Nodup)
    (hfiles : ∀ p ∈ changed, p.isJava = true ∧ s.hasFile p = true) :
    s.onChange format changed = .ok (s.formatAll format true (Text.sort Path.le changed)) := by
  have hjava : changed.filter Path.isJava = changed :=
    List.filter_eq_self.mpr fun p hp => (hfiles p hp).1
  have hfile : changed.filter s.hasFile = changed :=
    List.filter_eq_self.mpr fun p hp => (hfiles p hp).2
  have hfaults : changed.findSome? s.fault? = none := by
    rw [List.findSome?_eq_none_iff]
    intro p hp
    obtain ⟨l, hl, -⟩ := (Option.any_eq_true _ _).mp (hfiles p hp).2
    rw [fault?, resolve?_eq_some_iff.mp hl]
  rw [onChange, eraseDups_of_nodup hnodup, hjava]
  simp only [hfaults, hfile]

/-- Files are formatted independently of each other. If a path leads nowhere, or to a name that
is too long, the run is refused because of such a path before any file is touched. In any other
case each file that is found is reported on as it would be alone if files are not written, and
everything is left as it is. If files are written and no two of those that are found are the
same file under different names, then each is reported on as it would be alone and just those
that formatting changes are rewritten, up to the first that formatting changes and that cannot
be written, which ends the run; and in whatever order files are read and written, the reports
and what is rewritten are the same once all are done with. Reacting to changed files comes to
the same as formatting their sorted paths. -/
theorem formatPaths_independent {format : Formatting} (h : format.Reported) (s : Store) :
    (∀ paths, (∃ refusal, s.Refuses paths refusal) → ∃ refusal, s.Refuses paths refusal ∧
      ∀ write, s.formatPaths format write paths = .error refusal) ∧
    (∀ paths, (∀ refusal, ¬ s.Refuses paths refusal) → ∃ files, s.discover paths = .ok files ∧
      (∃ run, s.formatPaths format false paths = .ok run ∧ run.escaped = none ∧
        run.reports.map .ok = files.map (fun p => (s.formatFile format false p).1) ∧
        run.store = s) ∧
      ((files.map s.fileAt?).Nodup →
        (∃ run, s.formatPaths format true paths = .ok run ∧ s.RunsTo format files run) ∧
        ∀ write pool, Pool.Steps format write (.start s files) pool → pool.Done →
          pool.reports = files.map (fun p => (s.formatFile format false p).1) ∧
          s.Formatted format write files pool.store)) ∧
    ∀ changed, (changed.map s.resolve?).Nodup →
      (∀ p ∈ changed, p.isJava = true ∧
        ∃ l, s.resolve? p = some l ∧ s.isFile l = true ∧ s.isFolder l = false) →
      ∃ run, s.formatPaths format true (Text.sort Path.le changed) = .ok run ∧
        s.onChange format changed = .ok run := by
  refine ⟨fun paths ⟨refusal, hrefuses⟩ => ?_, fun paths hpaths => ?_,
    fun changed hnodup hfiles => ?_⟩
  · cases hfound : s.discover paths with
    | ok files => exact absurd hrefuses (s.not_refuses_of_discoverAfter hfound refusal)
    | error refusal' =>
      exact ⟨refusal', s.refuses_of_discoverAfter hfound, fun write => by
        rw [formatPaths, hfound]⟩
  · cases hfound : s.discover paths with
    | error refusal => exact absurd (s.refuses_of_discoverAfter hfound) (hpaths refusal)
    | ok files =>
      obtain ⟨hescaped, hreports, hstore⟩ := formatAll_false h s files
      refine ⟨files, rfl, ⟨s.formatAll format false files, ?_, hescaped, hreports, hstore⟩,
        fun hnodup => ⟨⟨s.formatAll format true files, ?_, runsTo_formatAll h hnodup⟩, ?_⟩⟩
      · rw [formatPaths, hfound]
      · rw [formatPaths, hfound]
      · intro write pool hsteps hdone
        have hsound := (Pool.sound_start s files).steps hnodup hsteps
        exact ⟨hsound.reports_eq hdone, formatted_of_done hsound hdone⟩
  · have hperm := Text.sort_perm Path.le changed
    refine ⟨s.formatAll format true (Text.sort Path.le changed), ?_, onChange_eq (hnodup.of_map _) ?_⟩
    · rw [formatPaths, s.discover_of_files ((hperm.map s.resolve?).nodup_iff.mpr hnodup)]
      intro p hp
      obtain ⟨-, l, hl, -, hfolder⟩ := hfiles p (hperm.mem_iff.mp hp)
      exact ⟨l, hl, hfolder⟩
    · intro p hp
      obtain ⟨hjava, l, hl, hfile, -⟩ := hfiles p hp
      exact ⟨hjava, by simp [hasFile, hl, hfile]⟩

/-- A directory with a link to a source and three sources, one of which cannot be written. -/
def lockedFolder : Store :=
  { Store.ofFiles
      [(["w", "B.java"], { bytes := Text.Utf8.encode "b ", writable := false }),
        (["w", "C.java"], { bytes := Text.Utf8.encode "c " }),
        (["w", "A.java"], { bytes := Text.Utf8.encode "a " })] ["w"] with
    links := [(["w", "D.java"], ⟨false, ["B.java"]⟩)] }

/-- Formatting that leaves out spaces. -/
def withoutSpaces : Formatting := fun text => .ok (String.ofList (text.toList.filter (· != ' ')))

/-- A name that is too long. -/
def longName : String := String.ofList (List.replicate 256 'a')

/-- All three sources would be reformatted. If they are to be written, the run ends at the second
one, and neither this nor the third one is reported on or rewritten. A path that leads to a name
that is too long is refused, but not as one that leads nowhere. -/
theorem formatPaths_independent_lockedFolder :
    withoutSpaces.Reported ∧
    (∃ run, lockedFolder.formatPaths withoutSpaces false [⟨false, []⟩] = .ok run ∧
      run.reports = [⟨⟨false, ["A.java"]⟩, true, none⟩, ⟨⟨false, ["B.java"]⟩, true, none⟩,
        ⟨⟨false, ["C.java"]⟩, true, none⟩]) ∧
    (∃ run, lockedFolder.formatPaths withoutSpaces true [⟨false, []⟩] = .ok run ∧
      run.reports = [⟨⟨false, ["A.java"]⟩, true, none⟩] ∧
      run.escaped = some (.fault ⟨.denied, ⟨false, ["B.java"]⟩⟩) ∧
      run.store.bytes? ["w", "A.java"] = some (Text.Utf8.encode "a") ∧
      run.store.bytes? ["w", "C.java"] = some (Text.Utf8.encode "c ")) ∧
    lockedFolder.resolve? ⟨false, [longName]⟩ = none ∧
    ∃ fault, ∀ write, lockedFolder.formatPaths withoutSpaces write [⟨false, [longName]⟩] =
      .error (.fault fault) := by
  have hreported : withoutSpaces.Reported := fun text e he => by cases he
  obtain ⟨hrefused, hruns, -⟩ := formatPaths_independent hreported lockedFolder
  have hfound : lockedFolder.discover [⟨false, []⟩] =
      .ok [⟨false, ["A.java"]⟩, ⟨false, ["B.java"]⟩, ⟨false, ["C.java"]⟩] := by decide
  have hfiles : lockedFolder.fileAt? ⟨false, ["A.java"]⟩ = some 2 ∧
      lockedFolder.fileAt? ⟨false, ["B.java"]⟩ = some 0 ∧
      lockedFolder.fileAt? ⟨false, ["C.java"]⟩ = some 1 := by decide
  have hlong : lockedFolder.lookup ⟨false, [longName]⟩ = .error .nameTooLong := by decide +kernel
  have hA : lockedFolder.Changes withoutSpaces ⟨false, ["A.java"]⟩ 2 "a" :=
    ⟨hfiles.1, rfl, "a ", by decide, by decide, by decide⟩
  have hB : lockedFolder.Blocked withoutSpaces ⟨false, ["B.java"]⟩ :=
    ⟨0, "b", ⟨hfiles.2.1, rfl, "b ", by decide, by decide, by decide⟩, rfl⟩
  obtain ⟨files, hfiles', ⟨unwritten, hunwritten, -, hreported', -⟩, hwritten⟩ :=
    hruns [⟨false, []⟩] (lockedFolder.not_refuses_of_discoverAfter hfound)
  obtain rfl := Except.ok.inj (hfound.symm.trans hfiles')
  obtain ⟨⟨run, hrun, hrunsTo⟩, -⟩ := hwritten (by decide)
  have hfree : ∀ p ∈ [⟨false, ["A.java"]⟩], ¬ lockedFolder.Blocked withoutSpaces p := by
    rintro p hp ⟨i, formatted, hchanges, hwritable⟩
    rw [List.mem_singleton.mp hp] at hchanges
    obtain rfl := Option.some.inj (hfiles.1.symm.trans hchanges.1)
    cases hwritable
  obtain ⟨hescaped, hreports, hformatted⟩ := hrunsTo.blocked _ _ _ rfl hfree hB
  have hinj : Function.Injective (List.map (Except.ok : FileReport → Except FileProblem FileReport)) :=
    List.map_injective_iff.mpr fun _ _ => Except.ok.inj
  refine ⟨hreported, ⟨unwritten, hunwritten, hinj hreported'⟩,
    ⟨run, hrun, hinj hreports, hescaped, ?_, ?_⟩, ?_, ?_⟩
  · rw [bytes?, hformatted.names.number?_eq]
    exact congrArg some (hformatted.changed rfl _ List.mem_cons_self 2 "a" hA)
  · rw [bytes?, hformatted.names.number?_eq]
    refine congrArg some (congrArg File.bytes (hformatted.kept 1 (.inr ?_)))
    intro p hp formatted hchanges
    rw [List.mem_singleton.mp hp] at hchanges
    exact absurd (hfiles.1.symm.trans hchanges.1) (by decide)
  · rw [resolve?, hlong]
    rfl
  · obtain ⟨refusal, hrefuses, herror⟩ := hrefused [⟨false, [longName]⟩]
      ⟨_, .tooLong (List.mem_singleton_self _) (.inl rfl) hlong⟩
    rcases hrefuses with ⟨hp, -, hshort⟩ | ⟨-, -, -⟩
    · rw [List.mem_singleton.mp hp] at hshort
      exact absurd hlong hshort
    · exact ⟨_, herror⟩

/-- A file with two names. -/
def twiceNamed : Store where
  names := [(["A.java"], 0), (["B.java"], 0)]
  file _ := { bytes := Text.Utf8.encode "a " }

/-- Rewritten under its first name, the file is read again under the second one. -/
example : (twiceNamed.formatAll withoutSpaces true
    [⟨false, ["A.java"]⟩, ⟨false, ["B.java"]⟩]).reports =
    [⟨⟨false, ["A.java"]⟩, true, none⟩, ⟨⟨false, ["B.java"]⟩, false, none⟩] := by
  decide

end Store

end JavaFormat
