import JavaFormat.Proofs.Doc.Atoms

/-!
# Documents in a context

A context is a document with a hole somewhere in it. Documents with the same atoms are
rendered to the same text in every context (`render_eq_of_alike`): a state of the renderer
in which a concatenation or an empty text is on top has the same outcome as the state after
it, and other states with the same atoms on their stacks take the same step. So documents
may be built with `cat` wherever a concatenation is meant.
-/

namespace JavaFormat.Doc

/-! ## States with the same atoms -/

/-- The level, the mode and the atoms of a command. -/
def Command.content (c : Command) : Nat × Mode × List Doc := (c.level, c.mode, c.doc.atoms)

/-- Commands for documents in the same mode and at the same level. -/
def spread (content : Nat × Mode × List Doc) : List Command :=
  content.2.2.map (⟨content.1, content.2.1, ·⟩)

/-- The atoms of the documents on a stack. -/
def stackAtoms (cs : List Command) : List Command := (cs.map Command.content).flatMap spread

/-- Two commands whose documents have the same atoms. -/
def Command.Alike (c c' : Command) : Prop := c.content = c'.content

/-- Two states with the same atoms on the stack and in the suffixes that wait. -/
structure State.Alike (s s' : State) : Prop where
  stack : stackAtoms s.stack = stackAtoms s'.stack
  suffixes : s.suffixes.map Command.content = s'.suffixes.map Command.content
  printed : s.printed = s'.printed
  column : s.column = s'.column
  remeasure : s.remeasure = s'.remeasure

/-- States are alike in both directions. -/
theorem State.Alike.symm {s s' : State} (h : s.Alike s') : s'.Alike s :=
  ⟨h.stack.symm, h.suffixes.symm, h.printed.symm, h.column.symm, h.remeasure.symm⟩

/-- States that are like a third are alike. -/
theorem State.Alike.trans {s s' s'' : State} (h : s.Alike s') (h' : s'.Alike s'') :
    s.Alike s'' :=
  ⟨h.stack.trans h'.stack, h.suffixes.trans h'.suffixes, h.printed.trans h'.printed,
    h.column.trans h'.column, h.remeasure.trans h'.remeasure⟩

section Stack

variable {cs cs' : List Command}

/-- The atoms of a stack are those of its first command and of the others. -/
theorem stackAtoms_cons (c : Command) :
    stackAtoms (c :: cs) = c.doc.atoms.map (⟨c.level, c.mode, ·⟩) ++ stackAtoms cs := by
  rw [stackAtoms, List.map_cons, List.flatMap_cons]
  rfl

/-- The atoms of two stacks together. -/
theorem stackAtoms_append : stackAtoms (cs ++ cs') = stackAtoms cs ++ stackAtoms cs' := by
  rw [stackAtoms, List.map_append, List.flatMap_append]
  rfl

/-- Stacks of the same content have the same atoms. -/
theorem stackAtoms_eq_of_content (h : cs.map Command.content = cs'.map Command.content) :
    stackAtoms cs = stackAtoms cs' := congrArg (·.flatMap spread) h

/-- Stacks that are alike have the same content. -/
theorem content_eq_of_alike (h : List.Forall₂ Command.Alike cs cs') :
    cs.map Command.content = cs'.map Command.content := by
  induction h with
  | nil => rfl
  | cons h _ ih => rw [List.map_cons, List.map_cons, h, ih]

/-- The parts of a concatenation have the atoms of the concatenation. -/
theorem stackAtoms_map (l : Nat) (m : Mode) (ds : List Doc) :
    stackAtoms (ds.map (⟨l, m, ·⟩)) = (atomsAll ds).map (⟨l, m, ·⟩) := by
  induction ds with
  | nil => rfl
  | cons d ds ih => rw [List.map_cons, stackAtoms_cons, ih, atomsAll, List.map_append]

/-- A stack is measured as its atoms are. -/
theorem fitCommands_stackAtoms {strict : Bool} (cs : List Command) (width : Nat) :
    fitCommands strict width (stackAtoms cs) = fitCommands strict width cs := by
  induction cs generalizing width with
  | nil => rfl
  | cons c cs ih =>
    rw [stackAtoms_cons, fitCommands_append, fitCommands_cons, fit_eq_atoms c.doc]
    exact congrArg (Fit.andThen _) (funext ih)

/-- Stacks of the same atoms fit alike. -/
theorem fitCommands_eq_of_stackAtoms {strict : Bool} (h : stackAtoms cs = stackAtoms cs')
    (width : Nat) : fitCommands strict width cs = fitCommands strict width cs' := by
  rw [← fitCommands_stackAtoms cs, h, fitCommands_stackAtoms]

end Stack

/-- Having the same atoms is not seen by measuring, and it is kept by concatenations and
fills. -/
theorem correspondence_alike : Correspondence Alike Command.Alike where
  concat h := by
    rw [Alike, atoms, atoms]
    exact atomsAll_eq_of_alike h
  fill h := by
    rw [Alike, atoms, atoms, forall₂_alike_iff.mp h]
  fit strict mode width h := by
    rw [fit_eq_atoms, fit_eq_atoms, h]
  command l m h := by
    rw [Command.Alike, Command.content, Command.content, h]

/-! ## Steps that only open something -/

/-- Whether a document prints nothing by itself and decides nothing: an empty text or a
concatenation. -/
def Silent : Doc → Prop
  | .text s => s = ""
  | .concat _ => True
  | _ => False

/-- A state in which the document on top, if there is one, is not silent. -/
def State.Settled (s : State) : Prop := ∀ c rest, s.stack = c :: rest → ¬c.doc.Silent

/-- Working off a silent document changes no atoms. -/
theorem exists_step_of_silent (options : Options) {s : State} {c : Command}
    {rest : List Command} (hs : s.stack = c :: rest) (hc : c.doc.Silent) :
    ∃ t, s.step options = .next t ∧ t.Alike s := by
  obtain ⟨l, m, d⟩ := c
  cases d with
  | text w =>
    obtain rfl : w = "" := hc
    refine ⟨State.print { s with stack := rest } "", by rw [State.step, hs]; rfl, ?_⟩
    refine ⟨?_, rfl, rfl, rfl, rfl⟩
    rw [hs, stackAtoms_cons]
    rfl
  | concat ds =>
    refine ⟨{ s with stack := ds.map (⟨l, m, ·⟩) ++ rest }, by rw [State.step, hs]; rfl, ?_⟩
    refine ⟨?_, rfl, rfl, rfl, rfl⟩
    rw [hs, stackAtoms_append, stackAtoms_map, stackAtoms_cons, atoms]
  | _ => exact hc.elim

/-- A state that is not settled takes a step that changes no atoms. -/
theorem exists_step_of_not_settled (options : Options) {s : State} (h : ¬s.Settled) :
    ∃ t, s.step options = .next t ∧ t.Alike s := by
  simp only [State.Settled, not_forall, not_not] at h
  obtain ⟨c, rest, hs, hc⟩ := h
  exact exists_step_of_silent options hs hc

/-! ## Steps that print or decide -/

/-- A document that is not silent as an atom. -/
def closed : Doc → Doc
  | .group marked contents => .group marked (.concat contents.atoms)
  | .choice states => .choice (bundles states)
  | .indent contents => .indent (.concat contents.atoms)
  | .fill parts => .fill (bundles parts)
  | .suffix contents => .suffix (.concat contents.atoms)
  | d => d

/-- A document that prints something and is no list is its own atom. -/
theorem atoms_of_not_silent {d : Doc} (hd : ¬d.Silent) : d.atoms = [d.closed] := by
  cases d with
  | text w =>
    have hw : w.isEmpty = false := by simpa [Silent] using hd
    simp [atoms, closed, hw]
  | concat ds => exact absurd trivial hd
  | _ => rfl

/-- What two documents are that are not silent and have the same atom. -/
inductive Paired : Doc → Doc → Prop
  | text (w : String) : Paired (.text w) (.text w)
  | line (style : LineStyle) : Paired (.line style) (.line style)
  | suffix {d e} (h : Alike d e) : Paired (.suffix d) (.suffix e)
  | composite {d e} (h : BuiltAlike Alike d e) : Paired d e

/-- Documents that are the same once closed make a pair. -/
theorem paired_of_closed {d e : Doc} (hd : ¬d.Silent) (h : d.closed = e.closed) :
    Paired d e := by
  cases d with
  | concat ds => exact absurd trivial hd
  | text w =>
    cases e with
    | text v =>
      cases h
      exact .text w
    | _ => cases h
  | line style =>
    cases e with
    | line style' =>
      cases h
      exact .line style
    | _ => cases h
  | suffix d =>
    cases e with
    | suffix e => exact .suffix (concat.inj (suffix.inj h))
    | _ => cases h
  | group marked d =>
    cases e with
    | group marked' e =>
      obtain ⟨rfl, hcontents⟩ := group.inj h
      exact .composite (.group (concat.inj hcontents))
    | _ => cases h
  | choice ds =>
    cases e with
    | choice es => exact .composite (.choice (forall₂_alike_iff.mpr (choice.inj h)))
    | _ => cases h
  | indent d =>
    cases e with
    | indent e => exact .composite (.indent (concat.inj (indent.inj h)))
    | _ => cases h
  | fill ds =>
    cases e with
    | fill es => exact .composite (.fill (forall₂_alike_iff.mpr (fill.inj h)))
    | _ => cases h
  | breakParent =>
    cases e with
    | breakParent => exact .composite .breakParent
    | _ => cases h

section Step

variable {options : Options} {s s' : State}

/-- Printing keeps states alike. -/
theorem State.Alike.print (h : s.Alike s') (w : String) : (s.print w).Alike (s'.print w) :=
  ⟨h.stack, h.suffixes, congrArg (w.toList.reverse ++ ·) h.printed,
    congrArg (· + w.length) h.column, h.remeasure⟩

/-- Taking a break keeps states alike. -/
theorem State.Alike.breakLine (h : s.Alike s') (l : Nat) (literal : Bool) :
    (s.breakLine options l literal).Alike (s'.breakLine options l literal) := by
  obtain ⟨hstack, hsuffixes, hprinted, hcolumn, hremeasure⟩ := h
  unfold State.breakLine
  split
  · exact ⟨hstack, hsuffixes, congrArg ('\n' :: ·) hprinted, rfl, hremeasure⟩
  · exact ⟨hstack, hsuffixes, by rw [hprinted], rfl, hremeasure⟩

/-- The suffixes that wait are put on the stack with the same atoms. -/
theorem State.Alike.putBack (h : s.Alike s') {cs cs' : List Command}
    (hcs : stackAtoms cs = stackAtoms cs') :
    State.Alike { s with stack := s.suffixes ++ cs, suffixes := [] }
      { s' with stack := s'.suffixes ++ cs', suffixes := [] } := by
  refine ⟨?_, rfl, h.printed, h.column, h.remeasure⟩
  rw [stackAtoms_append, stackAtoms_append, stackAtoms_eq_of_content h.suffixes, hcs]

/-- Suffixes wait in both of two states with the same atoms or in none. -/
theorem State.Alike.suffixes_eq_nil_iff (h : s.Alike s') : s.suffixes = [] ↔ s'.suffixes = [] := by
  rw [← List.map_eq_nil_iff, h.suffixes, List.map_eq_nil_iff]

/-- States with the same atoms take a certain break in the same way. -/
theorem State.Alike.takeCertain (h : s.Alike s') (l : Nat) (m : Mode) (style : LineStyle) :
    State.Alike
      (match s.suffixes with
        | [] => s.breakLine options l style.literal
        | waiting =>
          { s with stack := waiting ++ ⟨l, m, .line style⟩ :: s.stack, suffixes := [] })
      (match s'.suffixes with
        | [] => s'.breakLine options l style.literal
        | waiting =>
          { s' with stack := waiting ++ ⟨l, m, .line style⟩ :: s'.stack, suffixes := [] }) := by
  have hcs : stackAtoms (⟨l, m, .line style⟩ :: s.stack) =
      stackAtoms (⟨l, m, .line style⟩ :: s'.stack) := by
    rw [stackAtoms_cons, stackAtoms_cons, h.stack]
  have hput := h.putBack hcs
  have hnil := h.suffixes_eq_nil_iff
  cases hs : s.suffixes with
  | nil =>
    rw [hnil.mp hs]
    exact h.breakLine l style.literal
  | cons c cs =>
    cases hs' : s'.suffixes with
    | nil => exact absurd (hs.symm.trans (hnil.mpr hs')) (List.cons_ne_nil c cs)
    | cons c' cs' => simpa only [hs, hs'] using hput

/-- States with the same atoms take a break in the same way. -/
theorem State.Alike.takeBreak (h : s.Alike s') (l : Nat) (m : Mode) (style : LineStyle) :
    (s.takeBreak options l m style).Alike (s'.takeBreak options l m style) := by
  unfold State.takeBreak
  split
  · split
    · exact h
    · exact h.print " "
  · split
    · have hmarked : State.Alike { s with remeasure := true } { s' with remeasure := true } :=
        ⟨h.stack, h.suffixes, h.printed, h.column, rfl⟩
      exact hmarked.takeCertain l m style
    · exact h.takeCertain l m style

/-- What two settled states with the same atoms have on top. -/
inductive Tops : List Command → List Command → Prop
  | nil : Tops [] []
  | cons (l : Nat) (m : Mode) {d e : Doc} {rest rest' : List Command} (hde : Paired d e)
    (hrest : stackAtoms rest = stackAtoms rest') : Tops (⟨l, m, d⟩ :: rest) (⟨l, m, e⟩ :: rest')

/-- Where no concatenation and no empty text is on top, equal atoms come from documents that
are paired. -/
theorem State.Alike.tops (h : s.Alike s') (hs : s.Settled) (hs' : s'.Settled) :
    Tops s.stack s'.stack := by
  have hstack := h.stack
  cases hcs : s.stack with
  | nil =>
    cases hcs' : s'.stack with
    | nil => exact .nil
    | cons c' rest' =>
      rw [hcs, hcs', stackAtoms_cons, atoms_of_not_silent (hs' c' rest' hcs')] at hstack
      cases hstack
  | cons c rest =>
    rw [hcs, stackAtoms_cons, atoms_of_not_silent (hs c rest hcs)] at hstack
    cases hcs' : s'.stack with
    | nil =>
      rw [hcs'] at hstack
      cases hstack
    | cons c' rest' =>
      rw [hcs', stackAtoms_cons, atoms_of_not_silent (hs' c' rest' hcs')] at hstack
      obtain ⟨hatom, hrest⟩ := List.cons_eq_cons.mp hstack
      obtain ⟨hl, hm, hclosed⟩ := Command.mk.inj hatom
      obtain ⟨l, m, d⟩ := c
      obtain ⟨l', m', e⟩ := c'
      obtain rfl : l = l' := hl
      obtain rfl : m = m' := hm
      exact .cons l m (paired_of_closed (hs _ rest hcs) hclosed) hrest

/-- Settled states with the same atoms take steps that come to states with the same atoms. -/
theorem State.Alike.step (options : Options) (h : s.Alike s') (hs : s.Settled) (hs' : s'.Settled) :
    Step.Related State.Alike (s.step options) (s'.step options) := by
  have htops := h.tops hs hs'
  rw [State.step, State.step]
  generalize hcs : s.stack = cs at htops
  generalize hcs' : s'.stack = cs' at htops
  cases htops with
  | nil =>
    have hput := h.putBack (Eq.refl (stackAtoms []))
    rw [List.append_nil, List.append_nil] at hput
    cases hw : s.suffixes with
    | nil =>
      rw [h.suffixes_eq_nil_iff.mp hw]
      exact .done
    | cons c cs =>
      cases hw' : s'.suffixes with
      | nil => exact absurd (hw.symm.trans (h.suffixes_eq_nil_iff.mpr hw')) (List.cons_ne_nil c cs)
      | cons c' cs' =>
        rw [hw, hw'] at hput
        exact .next hput
  | @cons l m d e rest rest' hde hrest =>
    have hpopped : State.Alike { s with stack := rest } { s' with stack := rest' } :=
      ⟨hrest, h.suffixes, h.printed, h.column, h.remeasure⟩
    cases hde with
    | text w => exact .next (hpopped.print w)
    | line style => exact .next (hpopped.takeBreak l m style)
    | @suffix d e hde =>
      refine .next ⟨hrest, ?_, h.printed, h.column, h.remeasure⟩
      rw [List.map_append, List.map_append, h.suffixes]
      exact congrArg _ (content_eq_of_alike (.cons (correspondence_alike.command l m hde) .nil))
    | composite hde =>
      refine correspondence_alike.execute State.Alike options hde hpopped.column hpopped.remeasure
        (fitCommands_eq_of_stackAtoms hrest) fun cs cs' again hpairs => ?_
      refine ⟨?_, h.suffixes, h.printed, h.column, rfl⟩
      rw [stackAtoms_append, stackAtoms_append, hrest,
        stackAtoms_eq_of_content (content_eq_of_alike hpairs)]

end Step

/-! ## Outcomes -/

/-- Every document weighs something. -/
theorem weight_pos (d : Doc) : 0 < d.weight := by
  cases d <;> simp only [weight] <;> omega

/-- A state that weighs nothing has nothing left to do. -/
theorem State.step_of_weight_eq_zero (options : Options) {s : State} (h : s.weight = 0) :
    s.step options = .done := by
  obtain ⟨stack, suffixes, printed, column, remeasure⟩ := s
  cases stack with
  | nil =>
    cases suffixes with
    | nil => rfl
    | cons c cs => simp [State.weight] at h
  | cons c rest =>
    have := weight_pos c.doc
    simp only [State.weight, List.map_cons, weightAll] at h
    omega

/-- With as much fuel as the state weighs, the fuel that is left over does not matter. -/
theorem State.run_eq_run (options : Options) {m n : Nat} {s : State} (hm : s.weight ≤ m)
    (hn : s.weight ≤ n) : s.run options m = s.run options n := by
  induction m generalizing n s with
  | zero =>
    have hdone := step_of_weight_eq_zero options (Nat.le_zero.mp hm)
    cases n with
    | zero => rfl
    | succ n => rw [run, run, hdone]
  | succ m ih =>
    cases n with
    | zero => rw [run, run, step_of_weight_eq_zero options (Nat.le_zero.mp hn)]
    | succ n =>
      rw [run, run]
      cases hstep : s.step options with
      | next t =>
        have hlt := (move_of_step hstep).weight_lt
        exact ih (by omega) (by omega)
      | done => rfl
      | stateless => rfl

/-- What has been printed when nothing is left to do; none if a choice without a state is in
the way. -/
def State.outcome? (options : Options) (s : State) : Option (List Char) :=
  (s.run options s.weight).map State.printed

section Outcome

variable {options : Options} {s s' t : State}

/-- A step does not change the outcome. -/
theorem State.outcome_of_next (h : s.step options = .next t) :
    s.outcome? options = t.outcome? options := by
  have hlt := (move_of_step h).weight_lt
  have hrun : s.run options s.weight = t.run options (s.weight - 1) := by
    obtain ⟨n, hn⟩ := Nat.exists_eq_add_of_lt hlt
    rw [hn, run, h]
    rfl
  rw [outcome?, outcome?, hrun, run_eq_run options (Nat.le_sub_one_of_lt hlt) (Nat.le_refl _)]

/-- A machine that is done has its output as outcome. -/
theorem State.outcome_of_done (h : s.step options = .done) :
    s.outcome? options = some s.printed := by
  rw [outcome?]
  cases s.weight <;> simp [run, h]

/-- A machine that meets a choice without a state has no outcome. -/
theorem State.outcome_of_stateless (h : s.step options = .stateless) :
    s.outcome? options = none := by
  have hne : s.weight ≠ 0 := by
    intro hzero
    rw [step_of_weight_eq_zero options hzero] at h
    cases h
  obtain ⟨n, hn⟩ := Nat.exists_eq_succ_of_ne_zero hne
  rw [outcome?, hn, run, h]
  rfl

/-- States with the same atoms have the same outcome. By induction on what both weigh: a step
that only opens something leads to a state with the same atoms in one of the two, and other
steps are taken in both. -/
theorem State.Alike.outcome_eq (options : Options) {s s' : State} (h : s.Alike s') :
    s.outcome? options = s'.outcome? options := by
  induction hw : s.weight + s'.weight using Nat.strongRecOn generalizing s s' with
  | ind n ih =>
    subst hw
    by_cases hs : s.Settled
    · by_cases hs' : s'.Settled
      · have hsteps := h.step options hs hs'
        generalize hstep : s.step options = found at hsteps
        generalize hstep' : s'.step options = found' at hsteps
        cases hsteps with
        | @next t t' ht =>
          have hlt := (move_of_step hstep).weight_lt
          have hlt' := (move_of_step hstep').weight_lt
          rw [outcome_of_next hstep, outcome_of_next hstep']
          exact ih _ (by omega) ht rfl
        | done => rw [outcome_of_done hstep, outcome_of_done hstep', h.printed]
        | stateless => rw [outcome_of_stateless hstep, outcome_of_stateless hstep']
      · obtain ⟨t', hstep', ht'⟩ := exists_step_of_not_settled options hs'
        have hlt' := (move_of_step hstep').weight_lt
        rw [outcome_of_next hstep']
        exact ih _ (by omega) (h.trans ht'.symm) rfl
    · obtain ⟨t, hstep, ht⟩ := exists_step_of_not_settled options hs
      have hlt := (move_of_step hstep).weight_lt
      rw [outcome_of_next hstep]
      exact ih _ (by omega) (ht.trans h) rfl

end Outcome

/-- Documents with the same atoms are rendered to the same text, or neither is. -/
theorem render_eq_of_alike (options : Options) {d e : Doc} (h : d.Alike e) :
    render? options d = render? options e := by
  have hstates : (State.initial d.markBreaks).Alike (State.initial e.markBreaks) := by
    refine ⟨?_, rfl, rfl, rfl, rfl⟩
    rw [State.initial, State.initial, stackAtoms_cons, stackAtoms_cons, h.markBreaks]
  have hrender : ∀ d : Doc, render? options d =
      ((State.initial d.markBreaks).outcome? options).map fun cs => String.ofList cs.reverse := by
    intro d
    rw [render?, State.outcome?, Option.map_map]
    rfl
  rw [hrender d, hrender e, hstates.outcome_eq options]

/-! ## Contexts -/

/-- A document with a hole in it, which may be in any part of it. -/
inductive Context where
  | hole
  | concat (before : List Doc) (inner : Context) (after : List Doc)
  | group (marked : Bool) (inner : Context)
  | choice (before : List Doc) (inner : Context) (after : List Doc)
  | indent (inner : Context)
  | fill (before : List Doc) (inner : Context) (after : List Doc)
  | suffix (inner : Context)

/-- A context with a document in the place of its hole. -/
def Context.plug (d : Doc) : Context → Doc
  | .hole => d
  | .concat before inner after => .concat (before ++ inner.plug d :: after)
  | .group marked inner => .group marked (inner.plug d)
  | .choice before inner after => .choice (before ++ inner.plug d :: after)
  | .indent inner => .indent (inner.plug d)
  | .fill before inner after => .fill (before ++ inner.plug d :: after)
  | .suffix inner => .suffix (inner.plug d)

/-- Documents with the same atoms have them in every context. -/
theorem Alike.plug {d e : Doc} (h : d.Alike e) : ∀ c : Context, (c.plug d).Alike (c.plug e)
  | .hole => h
  | .concat before inner after => by
    have hinner := h.plug inner
    rw [Alike] at hinner ⊢
    simp only [Context.plug, atoms, atomsAll_append, atomsAll, hinner]
  | .group marked inner | .indent inner | .suffix inner => by
    have hinner := h.plug inner
    rw [Alike] at hinner ⊢
    simp only [Context.plug, atoms, hinner]
  | .choice before inner after | .fill before inner after => by
    have hinner := h.plug inner
    rw [Alike] at hinner ⊢
    simp only [Context.plug, atoms, bundles_append, bundles, hinner]

/-- Building through `cat` does not change what is printed: in every context a raw concatenation
and the document that `cat` puts together from the same parts are rendered to the same text,
their groups are marked alike one by one, and so are they found to break by the walk. -/
theorem render_plug_cat (options : Options) (c : Context) (ps : List Doc) :
    render? options (c.plug (.concat ps)) = render? options (c.plug (cat ps)) ∧
      (c.plug (.concat ps)).markBreaks.groupMarks = (c.plug (cat ps)).markBreaks.groupMarks ∧
      ((c.plug (.concat ps)).Unmarked →
        (c.plug (.concat ps)).walkedMarks? = (c.plug (cat ps)).walkedMarks?) := by
  have halike := (alike_concat_cat ps).plug c
  refine ⟨render_eq_of_alike options halike, halike.markBreaks.groupMarks_eq, fun hunmarked => ?_⟩
  have hunmarked' : (c.plug (cat ps)).Unmarked := by
    rw [Unmarked, ← halike.groupMarks_eq]
    exact hunmarked
  rw [walkedMarks?_of_unmarked hunmarked, walkedMarks?_of_unmarked hunmarked',
    halike.markBreaks.groupMarks_eq]

/-- A hole in a state of a choice, in a fill that is put off to the end of the line. -/
def noteHole : Context :=
  .concat ["a"] (.suffix (.fill ["n", space] (.choice [] (.group false .hole) ["s"]) [])) ["b"]

/-- Parts with an empty concatenation, an empty text and a group that breaks among them. -/
def looseParts : List Doc :=
  [.concat [], "", .concat [.concat ["c", .text ""], .group false hardline], "d"]

/-- A list of parts in a hole prints as the joined parts do, and has the same groups marked. -/
theorem render_plug_cat_noteHole :
    (noteHole.plug (.concat looseParts)).Unmarked ∧
      render? {} (noteHole.plug (.concat looseParts)) =
        render? {} (noteHole.plug (cat looseParts)) ∧
      (noteHole.plug (.concat looseParts)).markBreaks.groupMarks =
        (noteHole.plug (cat looseParts)).markBreaks.groupMarks ∧
      (noteHole.plug (.concat looseParts)).walkedMarks? =
        (noteHole.plug (cat looseParts)).walkedMarks? := by
  have hunmarked : (noteHole.plug (.concat looseParts)).Unmarked := by
    unfold Unmarked
    decide
  obtain ⟨hrender, hmarks, hwalked⟩ := render_plug_cat {} noteHole looseParts
  exact ⟨hunmarked, hrender, hmarks, hwalked hunmarked⟩

end JavaFormat.Doc
