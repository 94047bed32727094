import JavaFormat.Command.Perform
import JavaFormat.Proofs.Files.Discovery
import JavaFormat.Proofs.Files.Store
import JavaFormat.Proofs.Text.Utf8

/-!
# Printing and writing a file

The formatted text of a file is printed or written back. Either command makes one attempt
at the file, and the same one; but each has its own way to run it and its own list of the
problems that it provides for. So both come to the same texts, and both report the errors of
formatting in the same words, whatever console shows them. Files that cannot be read and bytes
that are not UTF-8 are on the list of the one that writes and not on that of the one that
prints; a file that cannot be written is on neither.
-/

namespace JavaFormat

variable {f : Formatter} {options : Options} {s : Store} {p : Path} {l : Location} {i : Nat}

/-- What formatting the file at a path comes to. -/
def Formatter.attempt (f : Formatter) (options : Options) (p : Path) (file : File) :
    Except FileProblem String :=
  if file.readable then
    match Text.Utf8.decode file.bytes with
    | .error d => .error (.failed (.undecodable d))
    | .ok text =>
      match f.format options .compilationUnit text with
      | .ok t => .ok t
      | .error e => .error (.failed e)
  else .error (.fault ⟨.denied, p⟩)

/-- A path leads to the file of a number. -/
structure Store.Holds (s : Store) (p : Path) (l : Location) (i : Nat) : Prop where
  resolve : s.resolve? p = some l
  number : s.number? l = some i
  file : s.isFolder l = false

namespace Store

/-- A file that is named is what is found. -/
theorem Holds.discover (h : s.Holds p l i) : s.discover [p] = .ok [p] :=
  s.discover_of_files (List.nodup_singleton _)
    (List.forall_mem_singleton.mpr ⟨l, h.resolve, h.file⟩)

/-- A file is read if it can be. -/
theorem Holds.read (h : s.Holds p l i) : s.read p =
    if (s.file i).readable then .ok (i, (s.file i).bytes) else .error .denied := by
  rw [Store.read, resolve?_eq_some_iff.mp h.resolve]
  dsimp only
  rw [h.number]

/-- Formatting changes the bytes of a file if the text that it comes to has others. The text
of the file is given by its bytes, so it need not be looked at. -/
theorem reformat_eq_map (format : Formatting) (bytes : List UInt8) :
    reformat format bytes =
      match Text.Utf8.decode bytes with
      | .error d => .error (.undecodable d)
      | .ok text => (format text).map fun t =>
        if Text.Utf8.encode t = bytes then none else some (Text.Utf8.encode t) := by
  rw [reformat]
  cases hdecode : Text.Utf8.decode bytes with
  | error d => rfl
  | ok text =>
    obtain rfl := Text.Utf8.encode_of_decode hdecode
    dsimp only
    cases format text with
    | error e => rfl
    | ok t => simp only [Except.map, Text.Utf8.encode_injective.eq_iff]

/-- Formatting a file in place that comes to a text leaves this text in it, unless it would have
to be written and cannot be. -/
theorem Holds.formatFile_of_ok (h : s.Holds p l i) {t : String}
    (ht : f.attempt options p (s.file i) = .ok t) :
    s.formatFile (f.format options .compilationUnit) true p =
      if Text.Utf8.encode t = (s.file i).bytes then (.ok { path := p }, s)
      else if (s.file i).writable then
        (.ok { path := p, changed := true }, s.put i (Text.Utf8.encode t))
      else (.error (.fault ⟨.denied, p⟩), s) := by
  rw [formatFile, h.read]
  rw [Formatter.attempt] at ht
  split at ht
  · rename_i hreadable
    rw [if_pos hreadable]
    simp only [reformat_eq_map]
    cases hdecode : Text.Utf8.decode (s.file i).bytes with
    | error d => simp [hdecode] at ht
    | ok text =>
      cases hformat : f.format options .compilationUnit text with
      | error e => simp [hdecode, hformat] at ht
      | ok t' =>
        obtain rfl : t' = t := by simpa [hdecode, hformat] using ht
        simp only [hformat, Except.map]
        by_cases hsame : Text.Utf8.encode t' = (s.file i).bytes
        · simp only [hsame, if_true]
        · simp only [hsame, if_false, if_true, write]
          cases (s.file i).writable <;> rfl
  · cases ht

/-- Formatting a file in place that comes to a problem leaves it as it is. -/
theorem Holds.formatFile_of_error (h : s.Holds p l i) {e : FileProblem}
    (he : f.attempt options p (s.file i) = .error e) :
    s.formatFile (f.format options .compilationUnit) true p =
      if e.isCaught then (.ok { path := p, problem := some e }, s) else (.error e, s) := by
  rw [formatFile, h.read]
  rw [Formatter.attempt] at he
  split at he
  · rename_i hreadable
    rw [if_pos hreadable]
    simp only [reformat_eq_map]
    cases hdecode : Text.Utf8.decode (s.file i).bytes with
    | error d =>
      obtain rfl : .failed (.undecodable d) = e := by simpa [hdecode] using he
      rfl
    | ok text =>
      cases hformat : f.format options .compilationUnit text with
      | ok t => simp [hdecode, hformat] at he
      | error e' =>
        obtain rfl : .failed e' = e := by simpa [hdecode, hformat] using he
        simp only [hformat, Except.map]
  · rename_i hreadable
    obtain rfl := Except.error.inj he
    rw [if_neg hreadable]
    rfl

end Store

namespace Command

variable (console : Console)

/-- A command prints a text and ends well. -/
structure Outcome.Prints (o : Outcome) (t : String) : Prop where
  exitCode : o.exitCode = 0
  stdout : o.stdout = t

/-- A command ends well and leaves a text in the file of a number. -/
structure Outcome.Leaves (o : Outcome) (i : Nat) (t : String) : Prop where
  exitCode : o.exitCode = 0
  bytes : (o.store.file i).bytes = Text.Utf8.encode t

/-- A command says what is wrong with a file. All files are left as they are. -/
structure Outcome.Reports (o : Outcome) (console : Console) (s : Store) (p : Path)
    (e : FileProblem) : Prop where
  exitCode : o.exitCode = 1
  stderr : o.stderr = fileErrorLine console p e.message
  escaped : o.escaped = none
  store : o.store = s

/-- A command is ended by a problem, without a word. All files are left as they are. -/
structure Outcome.Escapes (o : Outcome) (s : Store) (e : FileProblem) : Prop where
  exitCode : o.exitCode = 1
  stdout : o.stdout = ""
  stderr : o.stderr = ""
  escaped : o.escaped = some e
  store : o.store = s

/-- What is not provided for ends a command without a word. -/
theorem escapes_escape (s : Store) (e : FileProblem) : (escape s e).Escapes s e :=
  ⟨rfl, rfl, rfl, rfl, rfl⟩

/-- A command fails with a problem, which it provides for or not. -/
def Outcome.Fails (o : Outcome) (console : Console) (s : Store) (p : Path) (e : FileProblem)
    (provided : Bool) : Prop :=
  if provided then o.Reports console s p e else o.Escapes s e

/-- A command that fails does not end well. -/
theorem Outcome.Fails.exitCode_ne_zero {o : Outcome} {e : FileProblem} {provided : Bool}
    (h : o.Fails console s p e provided) : o.exitCode ≠ 0 := by
  have hone : o.exitCode = 1 := by
    cases provided with
    | false => exact Escapes.exitCode h
    | true => exact Reports.exitCode h
  rw [hone]
  exact Nat.one_ne_zero

/-! ## Printing -/

/-- What the command comes to that prints the text of a file. -/
def printed (f : Formatter) (options : Options) (s : Store) (p : Path) : Outcome :=
  withFiles console s [p] (printFormatted console f options s)

/-- Reading a file and formatting its text is an attempt at it. -/
theorem withText_format (h : s.Holds p l i) :
    withText s p (f.format options .compilationUnit) = f.attempt options p (s.file i) := by
  rw [withText, h.read, Formatter.attempt]
  by_cases hreadable : (s.file i).readable = true
  · rw [if_pos hreadable, if_pos hreadable]
    dsimp only
    cases Text.Utf8.decode (s.file i).bytes with
    | error d => rfl
    | ok text =>
      dsimp only
      cases f.format options .compilationUnit text <;> rfl
  · rw [if_neg hreadable, if_neg hreadable]

/-- The text that an attempt comes to is printed. -/
theorem printed_of_ok (h : s.Holds p l i) {t : String}
    (ht : f.attempt options p (s.file i) = .ok t) :
    printed console f options s p = { stdout := t, store := s } := by
  rw [printed, withFiles, h.discover]
  dsimp only
  rw [printFormatted, withText_format h, ht]

/-- An error of formatting is reported, and any other problem is not. -/
theorem printed_of_error (h : s.Holds p l i) {e : FileProblem}
    (he : f.attempt options p (s.file i) = .error e) :
    (printed console f options s p).Fails console s p e e.isReported := by
  have hfile : printed console f options s p = fileError console s p e := by
    rw [printed, withFiles, h.discover]
    dsimp only
    rw [printFormatted, withText_format h, he]
  rw [hfile, fileError, Outcome.Fails]
  split
  · exact ⟨rfl, rfl, rfl, rfl⟩
  · exact escapes_escape s e

/-- A text is printed if it is what the attempt comes to. -/
theorem printed_prints_iff (h : s.Holds p l i) {t : String} :
    (printed console f options s p).Prints t ↔ f.attempt options p (s.file i) = .ok t := by
  cases hattempt : f.attempt options p (s.file i) with
  | ok text =>
    rw [printed_of_ok console h hattempt]
    exact ⟨fun hprints => congrArg _ hprints.stdout, fun heq => ⟨rfl, Except.ok.inj heq⟩⟩
  | error e =>
    have hexit := (printed_of_error console h hattempt).exitCode_ne_zero
    exact ⟨fun hprints => absurd hprints.exitCode hexit, fun heq => by cases heq⟩

/-! ## Writing -/

/-- What the command comes to that formats a file in place. -/
def written (f : Formatter) (options : Options) (s : Store) (p : Path) : Outcome :=
  withFiles console s [p] fun files => runOver f options true s files (writeFormatted console)

/-- Writing is a run over the file alone. -/
theorem written_eq (h : s.Holds p l i) : written console f options s p =
    writeFormatted console (s.formatAll (f.format options .compilationUnit) true [p]) := by
  rw [written, withFiles, h.discover]
  dsimp only
  rw [runOver, Store.formatPaths, h.discover]

/-- A run over a file that could not be formatted says so. -/
theorem reports_writeFormatted (s : Store) (p : Path) (e : FileProblem) :
    (writeFormatted console ⟨[{ path := p, problem := some e }], none, s⟩).Reports console s p
      e where
  exitCode := by simp [writeFormatted, failureCount]
  stderr := by simp [writeFormatted, failureLines]
  escaped := by simp [writeFormatted]
  store := by simp [writeFormatted]

/-- What is on the list of the run is reported, and any other problem is not. -/
theorem written_of_error (h : s.Holds p l i) {e : FileProblem}
    (he : f.attempt options p (s.file i) = .error e) :
    (written console f options s p).Fails console s p e e.isCaught := by
  rw [written_eq console h, Store.formatAll, h.formatFile_of_error he, Outcome.Fails]
  split
  · exact reports_writeFormatted console s p e
  · exact escapes_escape s e

/-- A file that comes to a text holds it in the end, if it can be written or holds it already. -/
theorem written_of_ok (h : s.Holds p l i) {t : String}
    (ht : f.attempt options p (s.file i) = .ok t)
    (hwrite : (s.file i).writable = true ∨ (s.file i).bytes = Text.Utf8.encode t) :
    (written console f options s p).Leaves i t := by
  rw [written_eq console h, Store.formatAll, h.formatFile_of_ok ht]
  by_cases hsame : Text.Utf8.encode t = (s.file i).bytes
  · rw [if_pos hsame]
    exact ⟨rfl, hsame.symm⟩
  · rw [if_neg hsame, if_pos (hwrite.resolve_right (Ne.symm hsame))]
    exact ⟨rfl, by simp [writeFormatted, Store.formatAll]⟩

/-- A file that cannot be written ends the command, if it comes to a text that it does not hold. -/
theorem written_of_locked (h : s.Holds p l i) {t : String}
    (ht : f.attempt options p (s.file i) = .ok t) (hwritable : (s.file i).writable = false)
    (hne : (s.file i).bytes ≠ Text.Utf8.encode t) :
    (written console f options s p).Escapes s (.fault ⟨.denied, p⟩) := by
  rw [written_eq console h, Store.formatAll, h.formatFile_of_ok ht, if_neg (Ne.symm hne),
    if_neg (by simp [hwritable])]
  exact escapes_escape s _

/-- A text is left in the file if it is what the attempt comes to, and the file can be written or
holds it already. -/
theorem written_leaves_iff (h : s.Holds p l i) {t : String} :
    (written console f options s p).Leaves i t ↔ f.attempt options p (s.file i) = .ok t ∧
      ((s.file i).writable = true ∨ (s.file i).bytes = Text.Utf8.encode t) := by
  refine ⟨fun hleaves => ?_, fun ⟨ht, hwrite⟩ => written_of_ok console h ht hwrite⟩
  cases hattempt : f.attempt options p (s.file i) with
  | error e => exact absurd hleaves.exitCode (written_of_error console h hattempt).exitCode_ne_zero
  | ok text =>
    by_cases hwrite : (s.file i).writable = true ∨ (s.file i).bytes = Text.Utf8.encode text
    · have hbytes := (written_of_ok console h hattempt hwrite).bytes
      obtain rfl := Text.Utf8.encode_injective (hbytes.symm.trans hleaves.bytes)
      exact ⟨rfl, hwrite⟩
    · obtain ⟨hwritable, hne⟩ := not_or.mp hwrite
      have hescapes := written_of_locked console h hattempt (by simpa using hwritable) hne
      exact absurd (hescapes.exitCode.symm.trans hleaves.exitCode) Nat.one_ne_zero

/-! ## Both commands -/

/-- Whatever console shows messages and whatever settings are valid: on every file, a text is
printed if and only if formatting the file comes to it, and if the file can be written, then
writing ends well and leaves this text in it on the same condition. Where the file cannot be
written but would have to be, the one command prints the text and the other one is ended
without a word. An error of formatting is reported by both commands in the same words. If the
file cannot be read or its bytes are not UTF-8, that is reported if the file is to be written,
but escapes if it is to be printed, without a word about the file. A problem that is none of
these escapes from both. -/
theorem perform_print_write (console : Console) (validate : Validation) (f : Formatter)
    (environment : String → Option String) {settings : Settings} {options : Options}
    (hoptions : validate (settings.withEnvironment environment) = some options)
    {s : Store} {p : Path} {l : Location} {i : Nat} (h : s.Holds p l i) :
    ∃ print write : Outcome,
      perform console validate f environment s (.format [p] false settings) = .ended print ∧
      perform console validate f environment s (.format [p] true settings) = .ended write ∧
      (∀ t, print.Prints t ↔ f.attempt options p (s.file i) = .ok t) ∧
      (∀ t, write.Leaves i t ↔ f.attempt options p (s.file i) = .ok t ∧
        ((s.file i).writable = true ∨ (s.file i).bytes = Text.Utf8.encode t)) ∧
      (∀ t, f.attempt options p (s.file i) = .ok t → (s.file i).writable = false →
        (s.file i).bytes ≠ Text.Utf8.encode t → write.Escapes s (.fault ⟨.denied, p⟩)) ∧
      ∀ e, f.attempt options p (s.file i) = .error e →
        (e.isReported = true → print.Reports console s p e ∧ write.Reports console s p e) ∧
        (e.isReported = false → e.isCaught = true →
          print.Escapes s e ∧ write.Reports console s p e) ∧
        (e.isCaught = false → print.Escapes s e ∧ write.Escapes s e) := by
  refine ⟨printed console f options s p, written console f options s p, ?_, ?_,
    fun t => printed_prints_iff console h, fun t => written_leaves_iff console h,
    fun t ht => written_of_locked console h ht, fun e he => ?_⟩
  · simp [perform, hoptions, printed]
  · simp [perform, hoptions, written]
  · have hprint := printed_of_error console h he
    have hwrite := written_of_error console h he
    refine ⟨fun hreported => ?_, fun hreported hcaught => ?_, fun hcaught => ?_⟩
    · rw [hreported] at hprint
      rw [FileProblem.isCaught_of_isReported hreported] at hwrite
      exact ⟨hprint, hwrite⟩
    · rw [hreported] at hprint
      rw [hcaught] at hwrite
      exact ⟨hprint, hwrite⟩
    · have hreported : e.isReported = false := by
        by_contra hnot
        rw [FileProblem.isCaught_of_isReported (by simpa using hnot)] at hcaught
        cases hcaught
      rw [hreported] at hprint
      rw [hcaught] at hwrite
      exact ⟨hprint, hwrite⟩

/-- A file of one byte that begins no character. -/
def strayByte : Store := .ofFiles [(["A.java"], { bytes := [0xFF] })] []

/-- The formatter of a grammar by which every source is an empty program. -/
def emptyPrograms : Formatter :=
  .ofGrammar fun _ => .node ⟨"program", true, 0, 0, none, false, false⟩ []

/-- A message without what stands in brackets. -/
def withoutBrackets : Bool → List Char → List Char
  | _, [] => []
  | inside, c :: cs =>
    if c = '[' then withoutBrackets true cs
    else if c = ']' then withoutBrackets false cs
    else if inside then withoutBrackets true cs
    else c :: withoutBrackets false cs

/-- A wide console without styles, as it shows messages in which every bracket is a style. -/
def wideConsole : Console where
  escape s := s
  out message := String.ofList (withoutBrackets false message.toList) ++ "\n"
  err message := String.ofList (withoutBrackets false message.toList) ++ "\n"

/-- The file is not touched. Writing says what is wrong with it, and printing nothing. -/
theorem perform_print_write_strayByte : ∃ print write : Outcome,
    perform wideConsole (fun _ => some {}) emptyPrograms (fun _ => none) strayByte
      (.format [⟨false, ["A.java"]⟩] false {}) = .ended print ∧
    perform wideConsole (fun _ => some {}) emptyPrograms (fun _ => none) strayByte
      (.format [⟨false, ["A.java"]⟩] true {}) = .ended write ∧
    print.escaped = some (.failed (.undecodable ⟨0, 1, 0xFF, .strayByte⟩)) ∧
    print.exitCode = 1 ∧ print.stderr = "" ∧
    write.escaped = none ∧ write.exitCode = 1 ∧
    write.stderr = "error A.java: 'utf-8' codec can't decode byte 0xff in position 0: " ++
      "invalid start byte\n" := by
  have hholds : strayByte.Holds ⟨false, ["A.java"]⟩ ["A.java"] 0 :=
    ⟨by decide, by decide, by decide⟩
  obtain ⟨print, write, hprint, hwrite, -, -, -, herror⟩ :=
    perform_print_write wideConsole (fun _ => some {}) emptyPrograms (fun _ => none) rfl hholds
  have hattempt : emptyPrograms.attempt {} ⟨false, ["A.java"]⟩ (strayByte.file 0) =
      .error (.failed (.undecodable ⟨0, 1, 0xFF, .strayByte⟩)) := rfl
  obtain ⟨hescapes, hreports⟩ := (herror _ hattempt).2.1 rfl rfl
  have hline : fileErrorLine wideConsole ⟨false, ["A.java"]⟩
      (FileProblem.failed (.undecodable ⟨0, 1, 0xFF, .strayByte⟩)).message =
      "error A.java: 'utf-8' codec can't decode byte 0xff in position 0: " ++
        "invalid start byte\n" := by
    decide +kernel
  exact ⟨print, write, hprint, hwrite, hescapes.escaped, hescapes.exitCode, hescapes.stderr,
    hreports.escaped, hreports.exitCode, hreports.stderr.trans hline⟩

end Command

end JavaFormat
