import JavaFormat.Proofs.Doc.Correspondence

/-!
# Documents with other notes

What a suffix says has no part in any decision of the renderer: it is not measured, and it
is printed when the line is at its end. Two documents that are the same but for the texts
in their suffixes are therefore worked off by the same steps, as long as no suffix is being
printed. `Renoted` relates such documents, and `State.Renoted.execute` says it of one step.
-/

namespace JavaFormat.Doc

mutual

/-- A text without line feeds, or several of them: what a suffix may say. -/
def IsNote : Doc → Prop
  | .text s => '\n' ∉ s.toList
  | .concat parts => AreNotes parts
  | _ => False

/-- Several documents are notes. -/
def AreNotes : List Doc → Prop
  | [] => True
  | d :: ds => IsNote d ∧ AreNotes ds

end

/-- Whether two documents without line feeds in their texts are the same but for the notes
in their suffixes, every choice in them having a state. -/
inductive Renoted : Doc → Doc → Prop
  | text {s} (hs : '\n' ∉ s.toList) : Renoted (.text s) (.text s)
  | concat {ds es} (h : List.Forall₂ Renoted ds es) : Renoted (.concat ds) (.concat es)
  | group {marked d e} (h : Renoted d e) : Renoted (.group marked d) (.group marked e)
  | choice {ds es} (hne : ds ≠ []) (h : List.Forall₂ Renoted ds es) :
    Renoted (.choice ds) (.choice es)
  | indent {d e} (h : Renoted d e) : Renoted (.indent d) (.indent e)
  | fill {ds es} (h : List.Forall₂ Renoted ds es) : Renoted (.fill ds) (.fill es)
  | line {style} : Renoted (.line style) (.line style)
  | suffix {d e} (hd : d.IsNote) (he : e.IsNote) : Renoted (.suffix d) (.suffix e)
  | breakParent : Renoted .breakParent .breakParent

mutual

/-- Notes have no choices. -/
theorem IsNote.sound {p : Prop} : ∀ {d : Doc}, d.IsNote → d.Sound p
  | .text _, _ => trivial
  | .concat _, h => AreNotes.sound h

/-- Notes are sound. -/
theorem AreNotes.sound {p : Prop} : ∀ {ds : List Doc}, AreNotes ds → SoundAll p ds
  | [], _ => trivial
  | _ :: _, h => ⟨h.1.sound, AreNotes.sound h.2⟩

end

mutual

/-- Every choice of a document that has another with other notes has a state. -/
theorem Renoted.sound : ∀ {d e : Doc}, Renoted d e → d.Sound True
  | .text _, _, _ => trivial
  | .concat _, _, h => by
    cases h with
    | concat h => exact soundAll_of_renoted h
  | .group _ contents, _, h => by
    cases h with
    | group h => exact Renoted.sound (d := contents) h
  | .choice _, _, h => by
    cases h with
    | choice hne h => exact ⟨hne, soundAll_of_renoted h⟩
  | .indent contents, _, h => by
    cases h with
    | indent h => exact Renoted.sound (d := contents) h
  | .fill _, _, h => by
    cases h with
    | fill h => exact soundAll_of_renoted h
  | .line _, _, _ => trivial
  | .suffix _, _, h => by
    cases h with
    | suffix hd he => exact ⟨trivial, hd.sound⟩
  | .breakParent, _, _ => trivial

/-- Lists that differ in their notes are sound. -/
theorem soundAll_of_renoted : ∀ {ds es : List Doc}, List.Forall₂ Renoted ds es →
    SoundAll True ds
  | [], _, _ => trivial
  | _ :: _, _, .cons h hs => ⟨h.sound, soundAll_of_renoted hs⟩

end

mutual

/-- Notes break no group. -/
theorem Renoted.breaks_eq : ∀ {d e : Doc}, Renoted d e → d.breaks = e.breaks
  | .text _, _, h => by
    cases h
    rfl
  | .concat _, _, h => by
    cases h with
    | concat h => exact breaksAny_eq_of_renoted h
  | .group _ contents, _, h => by
    cases h with
    | group h => rw [breaks, breaks, Renoted.breaks_eq (d := contents) h]
  | .choice _, _, h => by
    cases h with
    | choice hne h => exact breaksAny_eq_of_renoted h
  | .indent contents, _, h => by
    cases h with
    | indent h => rw [breaks, breaks, Renoted.breaks_eq (d := contents) h]
  | .fill _, _, h => by
    cases h with
    | fill h => exact breaksAny_eq_of_renoted h
  | .line _, _, h => by
    cases h
    rfl
  | .suffix _, _, h => by
    cases h
    rfl
  | .breakParent, _, h => by
    cases h
    rfl

/-- Lists that differ in their notes have a forced break in both or in neither. -/
theorem breaksAny_eq_of_renoted : ∀ {ds es : List Doc}, List.Forall₂ Renoted ds es →
    breaksAny ds = breaksAny es
  | [], _, .nil => rfl
  | _ :: _, _, .cons h hs => by rw [breaksAny, breaksAny, h.breaks_eq, breaksAny_eq_of_renoted hs]

end

mutual

/-- The same groups are marked whatever the notes say. -/
theorem Renoted.markBreaks : ∀ {d e : Doc}, Renoted d e → Renoted d.markBreaks e.markBreaks
  | .text _, _, h => by
    cases h with
    | text hs => exact .text hs
  | .concat _, _, h => by
    cases h with
    | concat h => exact .concat (renoted_markBreaksAll h)
  | .group _ contents, _, h => by
    cases h with
    | group h =>
      have hmarked := Renoted.markBreaks (d := contents) h
      rw [Doc.markBreaks, Doc.markBreaks, hmarked.breaks_eq]
      exact .group hmarked
  | .choice states, _, h => by
    cases h with
    | choice hne h =>
      refine .choice ?_ (renoted_markBreaksAll h)
      cases states with
      | nil => exact absurd rfl hne
      | cons d ds => exact List.cons_ne_nil _ _
  | .indent contents, _, h => by
    cases h with
    | indent h => exact .indent (Renoted.markBreaks (d := contents) h)
  | .fill _, _, h => by
    cases h with
    | fill h => exact .fill (renoted_markBreaksAll h)
  | .line _, _, h => by
    cases h
    exact .line
  | .suffix _, _, h => by
    cases h with
    | suffix hd he => exact .suffix hd he
  | .breakParent, _, h => by
    cases h
    exact .breakParent

/-- Marking the forced breaks of lists that differ in their notes gives such lists. -/
theorem renoted_markBreaksAll : ∀ {ds es : List Doc}, List.Forall₂ Renoted ds es →
    List.Forall₂ Renoted (markBreaksAll ds) (markBreaksAll es)
  | [], _, .nil => .nil
  | _ :: _, _, .cons h hs => .cons h.markBreaks (renoted_markBreaksAll hs)

end

/-! ## Measuring -/

mutual

/-- Notes are not measured. -/
theorem Renoted.fit_eq {strict : Bool} : ∀ {d e : Doc} {mode : Mode} {width : Nat},
    Renoted d e → fit strict mode width d = fit strict mode width e
  | .text _, _, _, _, h => by
    cases h
    rfl
  | .concat _, _, _, _, h => by
    cases h with
    | concat h => rw [fit, fit, fitAll_eq_of_renoted h]
  | .group _ contents, _, _, _, h => by
    cases h with
    | group h => rw [fit, fit, Renoted.fit_eq (d := contents) h]
  | .choice _, _, .broken, _, h => by
    cases h with
    | choice hne h => rw [fit, fit, fitLast_eq_of_renoted h]
  | .choice _, _, .flat, _, h => by
    cases h with
    | choice hne h => rw [fit, fit, fitFirst_eq_of_renoted h]
  | .indent contents, _, _, _, h => by
    cases h with
    | indent h => rw [fit, fit, Renoted.fit_eq (d := contents) h]
  | .fill _, _, _, _, h => by
    cases h with
    | fill h => rw [fit, fit, fitAll_eq_of_renoted h]
  | .line _, _, _, _, h => by
    cases h
    rfl
  | .suffix _, _, _, _, h => by
    cases h
    rfl
  | .breakParent, _, _, _, h => by
    cases h
    rfl

/-- Lists that differ in their notes fit alike. -/
theorem fitAll_eq_of_renoted {strict : Bool} : ∀ {ds es : List Doc} {mode : Mode} {width : Nat},
    List.Forall₂ Renoted ds es → fitAll strict mode width ds = fitAll strict mode width es
  | [], _, _, _, .nil => rfl
  | _ :: _, _, _, _, .cons h hs => by
    rw [fitAll, fitAll, h.fit_eq]
    split
    · exact fitAll_eq_of_renoted hs
    · rfl

/-- The first documents of lists that differ in their notes fit alike. -/
theorem fitFirst_eq_of_renoted {strict : Bool} : ∀ {ds es : List Doc} {mode : Mode} {width : Nat},
    List.Forall₂ Renoted ds es → fitFirst strict mode width ds = fitFirst strict mode width es
  | [], _, _, _, .nil => rfl
  | _ :: _, _, _, _, .cons h _ => by rw [fitFirst, fitFirst, h.fit_eq]

/-- The last documents of lists that differ in their notes fit alike. -/
theorem fitLast_eq_of_renoted {strict : Bool} : ∀ {ds es : List Doc} {mode : Mode} {width : Nat},
    List.Forall₂ Renoted ds es → fitLast strict mode width ds = fitLast strict mode width es
  | [], _, _, _, .nil => rfl
  | [_], _, _, _, .cons h .nil => by rw [fitLast, fitLast, h.fit_eq]
  | _ :: _ :: _, _, _, _, .cons _ (.cons h hs) => by
    simp only [fitLast]
    exact fitLast_eq_of_renoted (.cons h hs)

end

/-- A command with other notes. -/
inductive Command.Renoted : Command → Command → Prop
  | mk (l : Nat) (m : Mode) {d e : Doc} (h : d.Renoted e) : Command.Renoted ⟨l, m, d⟩ ⟨l, m, e⟩

/-- Commands with other notes. -/
abbrev RenotedAll : List Command → List Command → Prop := List.Forall₂ Command.Renoted

section Measure

variable {cs cs' rest rest' : List Command}

/-- Two stacks that differ in their notes, each on top of another such. -/
theorem RenotedAll.append (h : RenotedAll cs cs') (hrest : RenotedAll rest rest') :
    RenotedAll (cs ++ rest) (cs' ++ rest') :=
  List.rel_append h hrest

/-- A stack that differs from another in its notes is sound. -/
theorem RenotedAll.sound (h : RenotedAll cs cs') : SoundAll True (cs.map Command.doc) := by
  induction h with
  | nil => trivial
  | cons h _ ih =>
    cases h with
    | mk l m h => exact ⟨h.sound, ih⟩

/-- Notes are not measured among commands. -/
theorem RenotedAll.fitCommands_eq {strict : Bool} (h : RenotedAll cs cs') (width : Nat) :
    fitCommands strict width cs = fitCommands strict width cs' := by
  induction h generalizing width with
  | nil => rfl
  | cons h _ ih =>
    obtain ⟨l, m, h⟩ := h
    rw [fitCommands_cons, fitCommands_cons, h.fit_eq]
    exact congrArg (Fit.andThen _) (funext ih)

/-- Other notes are not seen by measuring, and they are kept by concatenations and fills. -/
theorem correspondence_renoted : Correspondence Renoted Command.Renoted where
  concat := .concat
  fill := .fill
  fit _ _ _ h := h.fit_eq
  command l m h := .mk l m h

end Measure

/-! ## Steps -/

/-- A state of the renderer with other notes, on the stack and waiting. What has been
printed is left open. -/
structure State.Renoted (s s' : State) : Prop where
  stack : RenotedAll s.stack s'.stack
  notes : ∀ c ∈ s.suffixes, c.doc.IsNote
  notes' : ∀ c ∈ s'.suffixes, c.doc.IsNote
  column : s.column = s'.column
  remeasure : s.remeasure = s'.remeasure

/-- A document that is replaced by simpler ones without anything being printed. -/
def Composite : Doc → Prop
  | .text _ | .line _ | .suffix _ => False
  | _ => True

/-- A composite document on top of the stack is replaced by others. -/
theorem Move.exists_expansion {options : Options} {s t : State} (hm : Move options s t)
    {c : Command} {rest : List Command} (hs : s.stack = c :: rest) (hc : c.doc.Composite) :
    ∃ cs again, Expansion c cs ∧ t = { s with stack := cs ++ rest, remeasure := again } := by
  cases hm with
  | expand hstack hexpansion again =>
    rw [hs] at hstack
    obtain ⟨rfl, rfl⟩ := List.cons_eq_cons.mp hstack
    exact ⟨_, again, hexpansion, rfl⟩
  | last hstack hw =>
    rw [hs] at hstack
    cases hstack
  | text hstack | defer hstack | glue hstack | blank hstack | flush hstack | newline hstack =>
    rw [hs] at hstack
    obtain ⟨rfl, -⟩ := List.cons_eq_cons.mp hstack
    exact hc.elim

/-- Composite documents with other notes are built alike. -/
theorem Renoted.builtAlike {d e : Doc} (h : d.Renoted e) (hd : d.Composite) :
    BuiltAlike Renoted d e := by
  cases h with
  | text | line | suffix => exact hd.elim
  | concat h => exact .concat h
  | group h => exact .group h
  | choice hne h => exact .choice h
  | indent h => exact .indent h
  | fill h => exact .fill h
  | breakParent => exact .breakParent

/-- Composite documents with other notes are replaced by documents with other notes: what is
decided does not depend on the notes. -/
theorem State.Renoted.execute (options : Options) {s s' : State} (h : s.Renoted s')
    {c c' : Command} (hc : c.Renoted c') (hcomposite : c.doc.Composite) :
    Step.Related State.Renoted (s.execute options c) (s'.execute options c') := by
  obtain ⟨l, m, hd⟩ := hc
  exact correspondence_renoted.execute State.Renoted options (hd.builtAlike hcomposite) h.column
    h.remeasure h.stack.fitCommands_eq fun _ _ _ hcs =>
      ⟨RenotedAll.append hcs h.stack, h.notes, h.notes', h.column, rfl⟩

/-- Composite documents on top of both stacks are replaced by others, and the states still
differ in their notes only. -/
theorem State.Renoted.exists_expansions (options : Options) {s s' : State} (h : s.Renoted s')
    {c c' : Command} {rest rest' : List Command} (hs : s.stack = c :: rest)
    (hs' : s'.stack = c' :: rest') (hcomposite : c.doc.Composite) :
    ∃ cs cs' again, Expansion c cs ∧ Expansion c' cs' ∧
      s.step options = .next { s with stack := cs ++ rest, remeasure := again } ∧
      s'.step options = .next { s' with stack := cs' ++ rest', remeasure := again } ∧
      State.Renoted { s with stack := cs ++ rest, remeasure := again }
        { s' with stack := cs' ++ rest', remeasure := again } := by
  have hpairs := h.stack
  rw [hs, hs', RenotedAll, List.forall₂_cons] at hpairs
  obtain ⟨hc, hrest⟩ := hpairs
  have hcomposite' : c'.doc.Composite := by
    obtain ⟨l, m, hd⟩ := hc
    cases hd <;> exact hcomposite
  have hsound : s.Sound True := ⟨h.stack.sound, soundAll_iff.mpr fun d hd => by
    obtain ⟨w, hw, rfl⟩ := List.mem_map.mp hd
    exact (h.notes w hw).sound⟩
  have hsteps : Step.Related State.Renoted (s.step options) (s'.step options) := by
    have hpopped : State.Renoted { s with stack := rest } { s' with stack := rest' } :=
      ⟨hrest, h.notes, h.notes', h.column, h.remeasure⟩
    simpa only [State.step, hs, hs'] using hpopped.execute options hc hcomposite
  obtain ⟨t, hstep⟩ : ∃ t, s.step options = .next t := by
    rcases hsound.step options with ⟨hnil, -⟩ | hnext
    · exact absurd (hs.symm.trans hnil) (List.cons_ne_nil _ _)
    · exact hnext
  rw [hstep] at hsteps
  generalize hstep' : s'.step options = next at hsteps
  obtain ⟨hnext⟩ := hsteps
  obtain ⟨cs, again, hexpansion, rfl⟩ := (move_of_step hstep).exists_expansion hs hcomposite
  obtain ⟨cs', again', hexpansion', rfl⟩ := (move_of_step hstep').exists_expansion hs' hcomposite'
  obtain rfl : again = again' := hnext.remeasure
  exact ⟨cs, cs', again, hexpansion, hexpansion', hstep, rfl, hnext⟩

end JavaFormat.Doc
