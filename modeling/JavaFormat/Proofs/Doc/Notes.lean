import JavaFormat.Proofs.Doc.Printing
import JavaFormat.Proofs.Doc.Renoted
import JavaFormat.Proofs.Doc.Width
import Mathlib.Data.List.DropRight

/-!
# Notes never influence the layout

A line is printed as its own text with the notes behind it that were met on it. What is
its own text, and where the lines end, does not depend on what the notes say. `Lined` cuts
a script into such lines; `State.Finishes` says of a state which lines are still to be
printed, and `State.Renoted.sameTexts` that they have the same texts in two states that
differ in their notes. The documents are rendered accordingly (`render_texts_of_renoted`).
-/

namespace JavaFormat.Doc

open Text

/-! ## Lines with notes -/

/-- What is printed on a line. -/
structure Line where
  /-- The characters that are printed where they stand, with the indentation in front. -/
  text : List Char
  /-- What is put off to the end of the line. -/
  notes : List String

/-- The text of a line with its notes behind it. -/
def Line.full (l : Line) : List Char := l.text ++ l.notes.flatMap String.toList

/-- Whether a line of the output is a line with its notes, but for blanks at its end. -/
def Line.Shows (l : Line) (s : String) : Prop :=
  dropEndWhile isPadding s.toList = dropEndWhile isPadding l.full

/-- How a script is cut into lines: the rest of the current one and those after it. A place
where a line may break is nothing or a space if the line does not break there, and a break
is followed by the indentation of the next line. -/
inductive Lined : List Cue → Line → List Line → Prop
  | done : Lined [] ⟨[], []⟩ []
  | char {q l ls} (c : Char) (h : Lined q l ls) :
    Lined (.now (.char c) :: q) ⟨c :: l.text, l.notes⟩ ls
  | glue {q l ls} (h : Lined q l ls) : Lined (.now .gap :: q) l ls
  | blank {q l ls} (h : Lined q l ls) : Lined (.now .gap :: q) ⟨' ' :: l.text, l.notes⟩ ls
  | note {q l ls} (s : String) (h : Lined q l ls) :
    Lined (.later (typed s) :: q) ⟨l.text, s :: l.notes⟩ ls
  | stop {q l ls} (width : Nat) (h : Lined q l ls) :
    Lined (.now .stop :: q) ⟨[], []⟩ (⟨List.replicate width ' ' ++ l.text, l.notes⟩ :: ls)
  | feed {q l ls} (h : Lined q l ls) : Lined (.now .feed :: q) ⟨[], []⟩ (l :: ls)

/-- The characters of a text stand on one line. -/
theorem Lined.typed {q : List Cue} {l : Line} {ls : List Line} (w : String) (h : Lined q l ls) :
    Lined (prompt (typed w) ++ q) ⟨w.toList ++ l.text, l.notes⟩ ls := by
  have hchars : ∀ cs : List Char,
      Lined (prompt (cs.map .char) ++ q) ⟨cs ++ l.text, l.notes⟩ ls := by
    intro cs
    induction cs with
    | nil => exact h
    | cons c cs ih => exact .char c ih
  exact hchars w.toList

/-- Characters that a line may be shown as. -/
structure Line.ShownAs (l : Line) (cs : List Char) : Prop where
  single : '\n' ∉ cs
  shown : dropEndWhile isPadding cs = dropEndWhile isPadding l.full

/-! ## Notes are printed as they are -/

mutual

/-- What a note says. -/
def noted : Doc → String
  | .text s => s
  | .concat parts => notedAll parts
  | _ => ""

/-- What several notes say. -/
def notedAll : List Doc → String
  | [] => ""
  | d :: ds => noted d ++ notedAll ds

end

mutual

/-- A note is read as what it says. -/
theorem IsNote.scripts : ∀ {d : Doc}, d.IsNote → d.Scripts (prompt (typed d.noted))
  | .text _, _ => rfl
  | .concat _, h => AreNotes.scriptsAll h

/-- Notes are printed as their text, at once. -/
theorem AreNotes.scriptsAll : ∀ {ds : List Doc}, AreNotes ds →
    ScriptsAll ds (prompt (typed (notedAll ds)))
  | [], _ => rfl
  | d :: ds, h => by
    refine ⟨_, _, h.1.scripts, AreNotes.scriptsAll h.2, ?_⟩
    rw [notedAll, typed_append, prompt_append]

end

mutual

/-- A note has no line feeds. -/
theorem IsNote.single : ∀ {d : Doc}, d.IsNote → '\n' ∉ d.noted.toList
  | .text _, h => h
  | .concat _, h => AreNotes.single h

/-- The text of notes has no line feed. -/
theorem AreNotes.single : ∀ {ds : List Doc}, AreNotes ds → '\n' ∉ (notedAll ds).toList
  | [], _ => by simp [notedAll]
  | d :: ds, h => by
    rw [notedAll, String.toList_append, List.mem_append]
    exact not_or.mpr ⟨h.1.single, AreNotes.single h.2⟩

end

/-- Two texts are printed one after the other as one. -/
theorem State.print_append (s : State) (v w : String) :
    (s.print v).print w = s.print (v ++ w) := by
  simp [State.print, Nat.add_assoc]

section Steps

variable {options : Options} {s t : State} {rest : List Command}

mutual

/-- A note on top of the stack is printed. -/
theorem IsNote.steps : ∀ {d : Doc} {l : Nat} {m : Mode} {rest : List Command} {s : State},
    d.IsNote → s.stack = ⟨l, m, d⟩ :: rest →
      State.Steps options s (State.print { s with stack := rest } d.noted)
  | .text w, l, m, rest, s, _, hs => by
    refine .single ?_
    simp only [State.step, hs]
    rfl
  | .concat ds, l, m, rest, s, h, hs => by
    have hfirst : s.step options =
        .next { s with stack := ds.map (⟨l, m, ·⟩) ++ rest } := by
      simp only [State.step, hs]
      rfl
    exact .head hfirst (AreNotes.steps h rfl)

/-- Notes that are next on the stack are printed. -/
theorem AreNotes.steps : ∀ {ds : List Doc} {l : Nat} {m : Mode} {rest : List Command} {s : State},
    AreNotes ds → s.stack = ds.map (⟨l, m, ·⟩) ++ rest →
      State.Steps options s (State.print { s with stack := rest } (notedAll ds))
  | [], l, m, rest, s, _, hs => by
    obtain ⟨stack, suffixes, printed, column, remeasure⟩ := s
    obtain rfl : stack = rest := hs
    exact .refl
  | d :: ds, l, m, rest, s, h, hs => by
    have hrest : State.Steps options
        (State.print { s with stack := ds.map (⟨l, m, ·⟩) ++ rest } d.noted)
        (State.print (State.print { s with stack := rest } d.noted) (notedAll ds)) :=
      AreNotes.steps h.2 rfl
    rw [notedAll, ← State.print_append]
    exact (h.1.steps hs).trans hrest

end

/-- What the suffixes that wait say. -/
def State.notes (s : State) : List String := s.suffixes.map fun c => c.doc.noted

/-- Notes on top of the stack are printed one after the other. -/
theorem exists_steps_notes (options : Options) {ws : List Command} (hws : ∀ c ∈ ws, c.doc.IsNote)
    (hs : s.stack = ws ++ rest) : ∃ t, State.Steps options s t ∧ t.stack = rest ∧
      t.suffixes = s.suffixes ∧ t.remeasure = s.remeasure ∧
      t.printed = ((ws.map fun c => c.doc.noted).flatMap String.toList).reverse ++ s.printed := by
  induction ws generalizing s with
  | nil => exact ⟨s, .refl, hs, rfl, rfl, rfl⟩
  | cons c ws ih =>
    obtain ⟨hc, hws⟩ := List.forall_mem_cons.mp hws
    obtain ⟨t, hsteps, hstack, hsuffixes, hremeasure, hprinted⟩ :=
      ih (s := State.print { s with stack := ws ++ rest } c.doc.noted) hws rfl
    refine ⟨t, (hc.steps hs).trans hsteps, hstack, hsuffixes, hremeasure, ?_⟩
    rw [hprinted]
    simp [State.print]

/-- The characters printed when a line has been begun. -/
def newLine (options : Options) (level : Nat) (literal : Bool) (printed : List Char) : List Char :=
  if literal then '\n' :: printed
  else List.replicate (level * options.tabWidth) ' ' ++ '\n' :: printed.dropWhile isPadding

/-- A break that is taken prints the notes that wait and begins a line. -/
theorem exists_steps_line (options : Options) {l : Nat} {m : Mode} {style : LineStyle}
    (hs : s.stack = ⟨l, m, .line style⟩ :: rest) (hb : m = .broken ∨ style.hard = true)
    (hnotes : ∀ c ∈ s.suffixes, c.doc.IsNote) :
    ∃ t, State.Steps options s t ∧ t.stack = rest ∧ t.suffixes = [] ∧
      t.remeasure = (m == .flat || s.remeasure) ∧
      t.column = (if style.literal then 0 else l * options.tabWidth) ∧
      t.printed = newLine options l style.literal
        ((s.notes.flatMap String.toList).reverse ++ s.printed) := by
  have hpast := isTaken_of_or hb
  have hlast : ∀ u : State, u.stack = ⟨l, m, .line style⟩ :: rest → u.suffixes = [] →
      u.step options = .next (State.breakLine options
        { u with stack := rest, remeasure := m == .flat || u.remeasure } l style.literal) := by
    rintro ⟨stack, suffixes, printed, column, remeasure⟩ hstack hsuffixes
    subst hstack hsuffixes
    simp only [State.step, State.execute, State.takeBreak, hpast, Bool.false_eq_true, if_false]
    cases m <;> rfl
  have hbegun : ∀ u : State, u.stack = ⟨l, m, .line style⟩ :: rest → u.suffixes = [] →
      u.printed = (s.notes.flatMap String.toList).reverse ++ s.printed →
      (m == .flat || u.remeasure) = (m == .flat || s.remeasure) → State.Steps options s u →
      ∃ t, State.Steps options s t ∧ t.stack = rest ∧ t.suffixes = [] ∧
        t.remeasure = (m == .flat || s.remeasure) ∧
        t.column = (if style.literal then 0 else l * options.tabWidth) ∧
        t.printed = newLine options l style.literal
          ((s.notes.flatMap String.toList).reverse ++ s.printed) := by
    intro u hstack hsuffixes hprinted hremeasure hsteps
    refine ⟨_, hsteps.tail (hlast u hstack hsuffixes), ?_⟩
    rw [← hprinted, ← hremeasure]
    unfold State.breakLine newLine
    cases style.literal <;> exact ⟨rfl, hsuffixes, rfl, rfl, rfl⟩
  by_cases hw : s.suffixes = []
  · exact hbegun s hs hw (by simp [State.notes, hw]) rfl .refl
  · have hfirst : s.step options = .next { s with
        stack := s.suffixes ++ s.stack
        suffixes := []
        remeasure := m == .flat || s.remeasure } := by
      obtain ⟨stack, suffixes, printed, column, remeasure⟩ := s
      obtain ⟨w, ws, rfl⟩ := List.exists_cons_of_ne_nil hw
      obtain rfl : stack = ⟨l, m, .line style⟩ :: rest := hs
      simp only [State.step, State.execute, State.takeBreak, hpast, Bool.false_eq_true, if_false]
      cases m <;> rfl
    obtain ⟨u, hsteps, hstack, hsuffixes, hremeasure, hprinted⟩ :=
      exists_steps_notes options (s := { s with
        stack := s.suffixes ++ s.stack, suffixes := [], remeasure := m == .flat || s.remeasure })
        hnotes rfl
    refine hbegun u (hstack.trans hs) hsuffixes hprinted ?_ (.head hfirst hsteps)
    rw [hremeasure, ← Bool.or_assoc, Bool.or_self]

/-! ## The lines that are still to be printed -/

/-- Whether what has been printed, the last character first, ends in a line feed if there is
anything. -/
def AtLineStart (printed : List Char) : Prop := ∀ c ∈ printed.head?, c = '\n'

/-- Blanks are dropped from the current line only. -/
theorem AtLineStart.dropWhile {before : List Char} (h : AtLineStart before) (cs : List Char) :
    (cs.reverse ++ before).dropWhile isPadding =
      (dropEndWhile isPadding cs).reverse ++ before := by
  have hbefore : before.dropWhile isPadding = before := by
    cases before with
    | nil => rfl
    | cons c before =>
      obtain rfl : c = '\n' := h c rfl
      rfl
  have hdrop : ∀ cs : List Char,
      (cs ++ before).dropWhile isPadding = cs.dropWhile isPadding ++ before := by
    intro cs
    induction cs with
    | nil => exact hbefore
    | cons c cs ih => cases hc : isPadding c <;> simp [hc, ih]
  rw [hdrop, dropEndWhile, List.reverse_reverse]

/-- Whether a state is led to an end in which the rest of the current line and some further
lines have been printed, those of a script of what is left to do. The notes that wait already
are printed in front of those met on the rest of the line. -/
def State.Finishes (options : Options) (s : State) (l : Line) (ls : List Line) : Prop :=
  ∃ q t, ScriptsAll (s.stack.map Command.doc) q ∧ Lined q l ls ∧ State.Steps options s t ∧
    t.stack = [] ∧ t.suffixes = [] ∧
    ∀ cur before, s.printed = cur.reverse ++ before → '\n' ∉ cur → AtLineStart before →
      ∃ strs, t.printed = (['\n'].intercalate strs).reverse ++ before ∧
        List.Forall₂ Line.ShownAs (⟨cur ++ l.text, s.notes ++ l.notes⟩ :: ls) strs

section Finishes

variable {l : Nat} {m : Mode} {line : Line} {ls : List Line}

/-- What is printed in the place of a command belongs to the same lines. -/
theorem State.Finishes.expand {c : Command} {cs : List Command} {again : Bool}
    (hs : s.stack = c :: rest) (hc : Expansion c cs)
    (hstep : s.step options = .next { s with stack := cs ++ rest, remeasure := again })
    (h : State.Finishes options { s with stack := cs ++ rest, remeasure := again } line ls) :
    s.Finishes options line ls := by
  obtain ⟨q, t, hq, hlined, hsteps, hstack, hsuffixes, hprinted⟩ := h
  rw [List.map_append] at hq
  obtain ⟨a, b, ha, hb, rfl⟩ := scriptsAll_append.mp hq
  refine ⟨a ++ b, t, ?_, hlined, .head hstep hsteps, hstack, hsuffixes, hprinted⟩
  rw [hs]
  exact ⟨a, b, hc.scripts ha, hb, rfl⟩

/-- What a document puts on the current line is printed in front of the rest of it. -/
theorem State.Finishes.printed {c : Command} {w : String} {cues : List Cue}
    (hs : s.stack = c :: rest) (hc : c.doc.Scripts cues) (hw : '\n' ∉ w.toList)
    (hcues : ∀ {q k ks}, Lined q k ks → Lined (cues ++ q) ⟨w.toList ++ k.text, k.notes⟩ ks)
    (hstep : s.step options = .next (State.print { s with stack := rest } w))
    (h : State.Finishes options (State.print { s with stack := rest } w) line ls) :
    s.Finishes options ⟨w.toList ++ line.text, line.notes⟩ ls := by
  obtain ⟨q, t, hq, hlined, hsteps, hstack, hsuffixes, hprinted⟩ := h
  refine ⟨cues ++ q, t, ?_, hcues hlined, .head hstep hsteps, hstack, hsuffixes, ?_⟩
  · rw [hs]
    exact ⟨cues, q, hc, hq, rfl⟩
  · intro cur before hcur hsingle hbefore
    have hlonger : (State.print { s with stack := rest } w).printed =
        (cur ++ w.toList).reverse ++ before := by
      simp [State.print, hcur]
    obtain ⟨strs, hstrs, hshown⟩ :=
      hprinted (cur ++ w.toList) before hlonger (by simp [hsingle, hw]) hbefore
    rw [List.append_assoc] at hshown
    exact ⟨strs, hstrs, hshown⟩

/-- A text is printed on the current line. -/
theorem State.Finishes.text {w : String} (hs : s.stack = ⟨l, m, .text w⟩ :: rest)
    (hw : '\n' ∉ w.toList)
    (h : State.Finishes options (State.print { s with stack := rest } w) line ls) :
    s.Finishes options ⟨w.toList ++ line.text, line.notes⟩ ls := by
  have hstep : s.step options = .next (State.print { s with stack := rest } w) := by
    simp only [State.step, hs]
    rfl
  exact h.printed hs rfl hw (fun hlined => hlined.typed w) hstep

/-- A break that is left out prints nothing if it is soft. -/
theorem State.Finishes.glue {style : LineStyle} (hs : s.stack = ⟨l, .flat, .line style⟩ :: rest)
    (hh : style.hard = false) (hsoft : style.soft = true)
    (h : State.Finishes options { s with stack := rest } line ls) : s.Finishes options line ls := by
  obtain ⟨q, t, hq, hlined, hsteps, hstack, hsuffixes, hprinted⟩ := h
  have hstep : s.step options = .next { s with stack := rest } := by
    simp [State.step, hs, State.execute, State.takeBreak, hh, hsoft]
  refine ⟨.now .gap :: q, t, ?_, .glue hlined, .head hstep hsteps, hstack, hsuffixes, hprinted⟩
  rw [hs]
  exact ⟨[.now .gap], q, .inr ⟨hh, rfl⟩, hq, rfl⟩

/-- A break that is left out prints a space otherwise. -/
theorem State.Finishes.blank {style : LineStyle} (hs : s.stack = ⟨l, .flat, .line style⟩ :: rest)
    (hh : style.hard = false) (hsoft : style.soft = false)
    (h : State.Finishes options (State.print { s with stack := rest } " ") line ls) :
    s.Finishes options ⟨' ' :: line.text, line.notes⟩ ls := by
  have hstep : s.step options = .next (State.print { s with stack := rest } " ") := by
    simp [State.step, hs, State.execute, State.takeBreak, hh, hsoft]
  have hscript : (Doc.line style).Scripts [.now .gap] := .inr ⟨hh, rfl⟩
  have hcues : ∀ {q k ks}, Lined q k ks →
      Lined ([.now .gap] ++ q) ⟨" ".toList ++ k.text, k.notes⟩ ks := .blank
  exact h.printed hs hscript (by decide) hcues hstep

/-- A suffix waits behind those that wait already. -/
theorem State.Finishes.defer {d : Doc} (hs : s.stack = ⟨l, m, .suffix d⟩ :: rest) (hd : d.IsNote)
    (h : State.Finishes options
      { s with stack := rest, suffixes := s.suffixes ++ [⟨l, m, d⟩] } line ls) :
    s.Finishes options ⟨line.text, d.noted :: line.notes⟩ ls := by
  obtain ⟨q, t, hq, hlined, hsteps, hstack, hsuffixes, hprinted⟩ := h
  have hstep : s.step options =
      .next { s with stack := rest, suffixes := s.suffixes ++ [⟨l, m, d⟩] } := by
    simp only [State.step, hs]
    rfl
  refine ⟨.later (typed d.noted) :: q, t, ?_, .note d.noted hlined, .head hstep hsteps, hstack,
    hsuffixes, ?_⟩
  · rw [hs]
    exact ⟨[.later (typed d.noted)], q, ⟨_, hd.scripts, rfl⟩, hq, rfl⟩
  · intro cur before hcur hsingle hbefore
    obtain ⟨strs, hstrs, hshown⟩ := hprinted cur before hcur hsingle hbefore
    simp only [State.notes, List.map_append, List.map_singleton, List.append_assoc,
      List.singleton_append] at hshown
    exact ⟨strs, hstrs, hshown⟩

/-- Notes have no line feeds, wherever they wait. -/
theorem State.single_notes (hnotes : ∀ c ∈ s.suffixes, c.doc.IsNote) :
    '\n' ∉ s.notes.flatMap String.toList := by
  simp only [State.notes, List.mem_flatMap, List.mem_map, not_exists, not_and]
  rintro _ ⟨c, hc, rfl⟩
  exact (hnotes c hc).single

/-- A break that is taken ends the current line, and the notes that wait stand at its end. -/
theorem State.Finishes.newline {style : LineStyle} (hs : s.stack = ⟨l, m, .line style⟩ :: rest)
    (hnotes : ∀ c ∈ s.suffixes, c.doc.IsNote) (hsteps : State.Steps options s t)
    (hstack : t.stack = rest) (hsuffixes : t.suffixes = [])
    (hprinted : t.printed = newLine options l style.literal
      ((s.notes.flatMap String.toList).reverse ++ s.printed))
    (h : t.Finishes options line ls) :
    s.Finishes options ⟨[], []⟩ (⟨List.replicate (if style.literal then 0 else
      l * options.tabWidth) ' ' ++ line.text, line.notes⟩ :: ls) := by
  obtain ⟨q, u, hq, hlined, hrest, hustack, husuffixes, huprinted⟩ := h
  have hnone : t.notes = [] := by rw [State.notes, hsuffixes, List.map_nil]
  have hcue : Lined (.now (.ofStyle style) :: q) ⟨[], []⟩ (⟨List.replicate (if style.literal then 0
      else l * options.tabWidth) ' ' ++ line.text, line.notes⟩ :: ls) := by
    unfold Glyph.ofStyle
    split
    · rename_i hfeed
      rw [Bool.and_eq_true] at hfeed
      simpa [hfeed.2] using Lined.feed hlined
    · exact .stop _ hlined
  refine ⟨.now (.ofStyle style) :: q, u, ?_, hcue, hsteps.trans hrest, hustack, husuffixes, ?_⟩
  · rw [hs]
    exact ⟨[.now (.ofStyle style)], q, .inl rfl, hstack ▸ hq, rfl⟩
  · intro cur before hcur hsingle hbefore
    obtain ⟨ended, hended, hkept, hbegun⟩ : ∃ ended, dropEndWhile isPadding ended =
        dropEndWhile isPadding (cur ++ s.notes.flatMap String.toList) ∧
        '\n' ∉ ended ∧ t.printed = (List.replicate (if style.literal then 0 else
          l * options.tabWidth) ' ').reverse ++ '\n' :: (ended.reverse ++ before) := by
      have hall : (s.notes.flatMap String.toList).reverse ++ s.printed =
          (cur ++ s.notes.flatMap String.toList).reverse ++ before := by
        rw [hcur, List.reverse_append, List.append_assoc]
      have hsingle' : '\n' ∉ cur ++ s.notes.flatMap String.toList := by
        rw [List.mem_append]
        exact not_or.mpr ⟨hsingle, State.single_notes hnotes⟩
      rw [hprinted, hall, newLine]
      cases style.literal with
      | true => exact ⟨_, rfl, hsingle', rfl⟩
      | false =>
        rw [if_neg (by simp), if_neg (by simp), hbefore.dropWhile, List.reverse_replicate]
        refine ⟨_, ?_, fun hmem => hsingle' ?_, rfl⟩
        · simp only [dropEndWhile, List.reverse_reverse, List.dropWhile_idempotent]
        · have hreverse := List.mem_reverse.mp hmem
          exact List.mem_reverse.mp ((List.dropWhile_sublist _).mem hreverse)
    obtain ⟨strs, hstrs, hshown⟩ := huprinted _ ('\n' :: (ended.reverse ++ before)) hbegun
      (by simp) (by simp [AtLineStart])
    rw [hnone, List.nil_append] at hshown
    refine ⟨ended :: strs, ?_, .cons ⟨hkept, ?_⟩ hshown⟩
    · rw [hstrs]
      cases hshown with
      | cons hfirst hmore => simp [List.intercalate_cons_cons]
    · simpa [Line.full] using hended

/-- When nothing is left to do the notes that wait are printed. -/
theorem State.finishes_nil (hs : s.stack = []) (hnotes : ∀ c ∈ s.suffixes, c.doc.IsNote) :
    s.Finishes options ⟨[], []⟩ [] := by
  obtain ⟨t, hsteps, hstack, hsuffixes, hprinted⟩ : ∃ t, State.Steps options s t ∧ t.stack = [] ∧
      t.suffixes = [] ∧ t.printed = (s.notes.flatMap String.toList).reverse ++ s.printed := by
    by_cases hw : s.suffixes = []
    · exact ⟨s, .refl, hs, hw, by simp [State.notes, hw]⟩
    · have hfirst : s.step options = .next { s with stack := s.suffixes, suffixes := [] } := by
        obtain ⟨w, ws, hw⟩ := List.exists_cons_of_ne_nil hw
        simp only [State.step, hs, hw]
      obtain ⟨t, hsteps, hstack, hsuffixes, -, hprinted⟩ :=
        exists_steps_notes options
          (s := { s with stack := s.suffixes, suffixes := [] }) hnotes (List.append_nil _).symm
      exact ⟨t, .head hfirst hsteps, hstack, hsuffixes, hprinted⟩
  refine ⟨[], t, ?_, .done, hsteps, hstack, hsuffixes, ?_⟩
  · rw [hs]
    rfl
  · intro cur before hcur hsingle hbefore
    refine ⟨[cur ++ s.notes.flatMap String.toList], ?_, .cons ⟨?_, ?_⟩ .nil⟩
    · simp [hprinted, hcur]
    · rw [List.mem_append]
      exact not_or.mpr ⟨hsingle, State.single_notes hnotes⟩
    · simp [Line.full]

end Finishes

/-- Whether two states are led to ends in which lines with the same texts have been printed. -/
def State.SameTexts (options : Options) (s s' : State) : Prop :=
  ∃ l ls l' ls', s.Finishes options l ls ∧ s'.Finishes options l' ls' ∧ l.text = l'.text ∧
    ls.map Line.text = ls'.map Line.text

/-- A composite document on top of the stack leaves the texts of the lines to what it is
replaced by. -/
theorem State.Renoted.sameTexts_of_composite {s s' : State} (h : s.Renoted s') {c c' : Command}
    {rest rest' : List Command} (hs : s.stack = c :: rest) (hs' : s'.stack = c' :: rest')
    (hc : c.doc.Composite)
    (ih : ∀ t t' : State, t.weight < s.weight → t.Renoted t' → t.SameTexts options t') :
    s.SameTexts options s' := by
  obtain ⟨cs, cs', again, hexpansion, hexpansion', hstep, hstep', hnext⟩ :=
    h.exists_expansions options hs hs' hc
  obtain ⟨l, ls, l', ls', hl, hl', htext, htexts⟩ :=
    ih _ _ (move_of_step hstep).weight_lt hnext
  exact ⟨l, ls, l', ls', hl.expand hs hexpansion hstep, hl'.expand hs' hexpansion' hstep', htext,
    htexts⟩

/-- A break that is taken leaves the next lines to what is on the stack behind it. -/
theorem State.Renoted.sameTexts_of_isCertain {s s' : State} (h : s.Renoted s') {l : Nat} {m : Mode}
    {style : LineStyle} {rest rest' : List Command} (hs : s.stack = ⟨l, m, .line style⟩ :: rest)
    (hs' : s'.stack = ⟨l, m, .line style⟩ :: rest') (hrest : RenotedAll rest rest')
    (hb : m = .broken ∨ style.hard = true)
    (ih : ∀ t t' : State, t.weight < s.weight → t.Renoted t' → t.SameTexts options t') :
    s.SameTexts options s' := by
  obtain ⟨t, hsteps, hstack, hsuffixes, hremeasure, hcolumn, hprinted⟩ :=
    exists_steps_line options hs hb h.notes
  obtain ⟨t', hsteps', hstack', hsuffixes', hremeasure', hcolumn', hprinted'⟩ :=
    exists_steps_line options hs' hb h.notes'
  have hlt : t.weight < s.weight := by
    simp only [State.weight, hstack, hsuffixes, hs, List.map_cons, List.map_nil, weightAll,
      Doc.weight, List.length_nil]
    omega
  have hnext : t.Renoted t' :=
    ⟨by rwa [hstack, hstack'], by simp [hsuffixes], by simp [hsuffixes'],
      hcolumn.trans hcolumn'.symm, by rw [hremeasure, hremeasure', h.remeasure]⟩
  obtain ⟨k, ks, k', ks', hk, hk', htext, htexts⟩ := ih t t' hlt hnext
  refine ⟨_, _, _, _, hk.newline hs h.notes hsteps hstack hsuffixes hprinted,
    hk'.newline hs' h.notes' hsteps' hstack' hsuffixes' hprinted', rfl, ?_⟩
  simp only [List.map_cons, htext, htexts]

/-- Two states that differ in their notes are led to ends in which lines with the same texts have
been printed. A flush raises what is on the stack, so the induction is on the weight. -/
theorem State.Renoted.sameTexts (options : Options) {s s' : State} (h : s.Renoted s') :
    s.SameTexts options s' := by
  induction hweight : s.weight using Nat.strong_induction_on generalizing s s' with
  | _ n ih =>
  subst hweight
  replace ih : ∀ t t', State.weight t < s.weight → t.Renoted t' → t.SameTexts options t' :=
    fun t _ hlt ht => ih t.weight hlt ht rfl
  have hmove : ∀ {t}, Move options s t → ∀ t', t.Renoted t' → t.SameTexts options t' :=
    fun hm t' ht => ih _ t' hm.weight_lt ht
  have hstack := h.stack
  generalize hs : s.stack = cs at hstack
  generalize hs' : s'.stack = cs' at hstack
  cases hstack with
  | nil => exact ⟨_, _, _, _, finishes_nil hs h.notes, finishes_nil hs' h.notes', rfl, rfl⟩
  | @cons c c' rest rest' hc hrest =>
    obtain ⟨l, m, hd⟩ := hc
    cases hd with
    | @text w hw =>
      obtain ⟨k, ks, k', ks', hk, hk', htext, htexts⟩ :=
        hmove (.text hs) (State.print { s' with stack := rest' } w)
          ⟨hrest, h.notes, h.notes', congrArg (· + w.length) h.column, h.remeasure⟩
      exact ⟨_, _, _, _, hk.text hs hw, hk'.text hs' hw, congrArg (w.toList ++ ·) htext, htexts⟩
    | @suffix d e hd he =>
      have hmore : ∀ (waiting : List Command) (note : Doc), note.IsNote →
          (∀ c ∈ waiting, c.doc.IsNote) → ∀ c ∈ waiting ++ [⟨l, m, note⟩], c.doc.IsNote := by
        intro waiting note hnote hwaiting c hc
        rcases List.mem_append.mp hc with hc | hc
        · exact hwaiting c hc
        · rw [List.mem_singleton.mp hc]
          exact hnote
      obtain ⟨k, ks, k', ks', hk, hk', htext, htexts⟩ :=
        hmove (.defer hs) { s' with stack := rest', suffixes := s'.suffixes ++ [⟨l, m, e⟩] }
          ⟨hrest, hmore _ d hd h.notes, hmore _ e he h.notes', h.column, h.remeasure⟩
      exact ⟨_, _, _, _, hk.defer hs hd, hk'.defer hs' he, htext, htexts⟩
    | @line style =>
      by_cases hb : m = .broken ∨ style.hard = true
      · exact h.sameTexts_of_isCertain hs hs' hrest hb ih
      · obtain ⟨hm, hh⟩ := not_or.mp hb
        obtain rfl : m = .flat := by
          cases m with
          | flat => rfl
          | broken => exact absurd rfl hm
        replace hh : style.hard = false := by simpa using hh
        cases hsoft : style.soft with
        | true =>
          obtain ⟨k, ks, k', ks', hk, hk', htext, htexts⟩ :=
            hmove (.glue hs hh hsoft) { s' with stack := rest' }
              ⟨hrest, h.notes, h.notes', h.column, h.remeasure⟩
          exact ⟨_, _, _, _, hk.glue hs hh hsoft, hk'.glue hs' hh hsoft, htext, htexts⟩
        | false =>
          obtain ⟨k, ks, k', ks', hk, hk', htext, htexts⟩ :=
            hmove (.blank hs hh hsoft) (State.print { s' with stack := rest' } " ")
              ⟨hrest, h.notes, h.notes', congrArg (· + 1) h.column, h.remeasure⟩
          exact ⟨_, _, _, _, hk.blank hs hh hsoft, hk'.blank hs' hh hsoft,
            congrArg (' ' :: ·) htext, htexts⟩
    | concat | group | choice | indent | fill | breakParent =>
      exact h.sameTexts_of_composite hs hs' trivial ih

end Steps

/-! ## The rendered lines -/

/-- A state from which the renderer gets to its end is run to that end. -/
theorem State.Steps.run {options : Options} {s t : State} (h : State.Steps options s t)
    (hstack : t.stack = []) (hsuffixes : t.suffixes = []) {fuel : Nat} (hfuel : s.weight ≤ fuel) :
    s.run options fuel = some t := by
  induction h using Relation.ReflTransGen.head_induction_on generalizing fuel with
  | refl => cases fuel <;> simp [State.run, State.step, hstack, hsuffixes]
  | head hstep _ ih =>
    have hlt := (move_of_step hstep).weight_lt
    cases fuel with
    | zero => omega
    | succ fuel =>
      rw [State.run, hstep]
      exact ih (by omega)

/-- Whether a document is rendered as an output in which some lines are shown, the lines of one
of its scripts. -/
structure Shown (options : Options) (d : Doc) (out : String) (printed : List Line) : Prop where
  rendered : render? options d = some out
  cut : ∃ q l ls, d.Scripts q ∧ Lined q l ls ∧ printed = l :: ls
  lines : List.Forall₂ Line.Shows printed (Text.lines out)

/-- A document is rendered as the lines that are still to be printed in the beginning. -/
theorem State.Finishes.exists_shown {options : Options} {d : Doc} {l : Line} {ls : List Line}
    (h : (State.initial d.markBreaks).Finishes options l ls) :
    ∃ out, Shown options d out (l :: ls) := by
  obtain ⟨_, t, ⟨q, _, hq, rfl, rfl⟩, hlined, hsteps, hstack, hsuffixes, hprinted⟩ := h
  rw [List.append_nil] at hlined
  obtain ⟨strs, hstrs, hshown⟩ := hprinted [] [] rfl (by simp) (by simp [AtLineStart])
  have hout : String.ofList t.printed.reverse = String.ofList (['\n'].intercalate strs) := by
    rw [hstrs, List.append_nil, List.reverse_reverse]
  have hlines : Text.lines (String.ofList (['\n'].intercalate strs)) = strs.map String.ofList := by
    have hsingle : ∀ cs ∈ strs, '\n' ∉ cs :=
      ((List.forall₂_and_left _ _).mp (hshown.flip.imp fun _ _ hcs => ⟨hcs.single, hcs⟩)).1
    have hne : strs ≠ [] := by
      rintro rfl
      cases hshown
    rw [Text.lines, String.toList_ofList, List.splitOn_intercalate _ hsingle hne]
  refine ⟨String.ofList (['\n'].intercalate strs), ?_, ⟨q, l, ls, ?_, hlined, rfl⟩, ?_⟩
  · unfold render?
    dsimp only
    rw [hsteps.run hstack hsuffixes (Nat.le_refl _), Option.map_some, hout]
  · exact (scripts_markBreaks d).mp hq
  · rw [hlines, List.forall₂_map_right_iff]
    exact hshown.imp fun k cs hk => by simpa [Line.Shows] using hk.shown

/-- Notes never influence the layout: two documents that are the same but for the texts in
their suffixes are rendered as lines with the same texts, each with the notes behind it that
the document itself puts off to the end of that line. -/
theorem render_texts_of_renoted (options : Options) {d e : Doc} (h : Renoted d e) :
    ∃ out out' printed printed', Shown options d out printed ∧ Shown options e out' printed' ∧
      (Text.lines out).length = (Text.lines out').length ∧
      printed.map Line.text = printed'.map Line.text := by
  have hstates : (State.initial d.markBreaks).Renoted (State.initial e.markBreaks) :=
    ⟨.cons (.mk 0 .broken h.markBreaks) .nil, by simp [State.initial], by simp [State.initial],
      rfl, rfl⟩
  obtain ⟨l, ls, l', ls', hl, hl', htext, htexts⟩ := hstates.sameTexts options
  obtain ⟨out, hout⟩ := hl.exists_shown
  obtain ⟨out', hout'⟩ := hl'.exists_shown
  have hsame : (l :: ls).map Line.text = (l' :: ls').map Line.text := by
    rw [List.map_cons, List.map_cons, htext, htexts]
  refine ⟨out, out', _, _, hout, hout', ?_, hsame⟩
  rw [← hout.lines.length_eq, ← hout'.lines.length_eq]
  simpa only [List.length_map] using congrArg List.length hsame

/-- A statement with a remark behind it, and another statement. -/
def remarked (note : String) : Doc := .concat ["a;", .suffix note, hardline, "b;"]

/-- A long remark leaves the lines as a short one has them, even where nothing fits. -/
theorem render_texts_of_renoted_remarked :
    Renoted (remarked " // x") (remarked " // longer") ∧
      ∃ printed printed', Shown { printWidth := 3 } (remarked " // x") "a; // x\nb;" printed ∧
        Shown { printWidth := 3 } (remarked " // longer") "a; // longer\nb;" printed' ∧
        printed.map Line.text = printed'.map Line.text := by
  have hnotes : Renoted (remarked " // x") (remarked " // longer") :=
    .concat (.cons (.text (by decide))
      (.cons (.suffix (by decide : '\n' ∉ " // x".toList) (by decide : '\n' ∉ " // longer".toList))
        (.cons (.concat (.cons .line (.cons .breakParent .nil)))
          (.cons (.text (by decide)) .nil))))
  obtain ⟨out, out', printed, printed', hout, hout', -, hsame⟩ :=
    render_texts_of_renoted { printWidth := 3 } hnotes
  have hshort : render? { printWidth := 3 } (remarked " // x") = some "a; // x\nb;" := by decide
  have hlong : render? { printWidth := 3 } (remarked " // longer") = some "a; // longer\nb;" := by
    decide
  obtain rfl : out = _ := Option.some.inj (hout.rendered.symm.trans hshort)
  obtain rfl : out' = _ := Option.some.inj (hout'.rendered.symm.trans hlong)
  exact ⟨hnotes, printed, printed', hout, hout', hsame⟩

end JavaFormat.Doc
