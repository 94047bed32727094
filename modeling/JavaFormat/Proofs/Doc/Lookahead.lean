import JavaFormat.Doc.Lookahead
import JavaFormat.Proofs.Doc.Notes

/-!
# The renderer comes to its end

Two loops run when a document is rendered: the renderer works off its stack and puts
suffixes back on it, and the look-aheads it starts go through the documents ahead. A
step of a look-ahead does not change what is measured and lowers the weight of what is
left (`Lookahead.value_step`, `Lookahead.weight_lt`), so enough steps come to the answer
of `fits?` (`Lookahead.run_eq_fits?`). A step of the renderer lowers the weight of its
state, to which the suffixes that wait and what is left of every fill belong; if every
choice has a state, it stops only when nothing is left on the stack or waits.
-/

namespace JavaFormat.Doc

/-! ## A look-ahead -/

/-- What is still to be measured, as commands. -/
def Lookahead.commands (a : Lookahead) : List Command :=
  a.stack.map (fun p => ⟨0, p.1, p.2⟩) ++ a.rest

/-- The answer that measuring comes to. -/
def Lookahead.fits? (strict : Bool) (a : Lookahead) : Option Bool :=
  Doc.fits? strict a.room a.commands

/-- The steps that are left at most: a command that follows takes one more than its
document. -/
def Lookahead.weight (a : Lookahead) : Nat :=
  weightAll (a.stack.map Prod.snd) + a.rest.length + weightAll (a.rest.map Command.doc)

/-- The answer after a step. -/
def Lookahead.Step.fits? (strict : Bool) : Lookahead.Step → Option Bool
  | .next a => a.fits? strict
  | .answer fits => some fits
  | .stateless => none

/-- The answer that a measure stands for. -/
def Fit.answer? : Fit → Option Bool
  | .room _ => some true
  | .ended => some true
  | .over => some false
  | .stateless => none

section Measure

variable {strict : Bool} {room : Int} {width : Nat} {mode : Mode} {rest : List Command}

/-- Nothing fits into less than no room. -/
theorem fits?_of_neg (h : room < 0) : fits? strict room rest = some false := if_pos h

/-- Into room that there is, commands fit as they do in order. -/
theorem fits?_natCast : fits? strict width rest = (fitCommands strict width rest).answer? := by
  have h : ¬(width : Int) < 0 := by omega
  rw [fits?, if_neg h, Int.toNat_natCast]
  cases fitCommands strict width rest <;> rfl

/-- What takes some room fits if there is so much left and the rest fits behind it. -/
theorem fits?_sub (n : Nat) : fits? strict ((width : Int) - n) rest =
    ((if n ≤ width then .room (width - n) else .over : Fit).andThen
      (fitCommands strict · rest)).answer? := by
  split
  · rename_i h
    rw [← Int.ofNat_sub h]
    exact fits?_natCast
  · exact fits?_of_neg (by omega)

/-- The last of several states is measured. -/
theorem fitLast_eq : ∀ states : List Doc, fitLast strict mode width states =
    match states.getLast? with
    | some d => fit strict mode width d
    | none => .stateless
  | [] => by simp [fitLast]
  | [d] => by simp [fitLast]
  | _ :: e :: es => by
    rw [fitLast, fitLast_eq (e :: es), List.getLast?_cons_cons]
    simp

/-- A choice is measured as the state that its mode names. -/
theorem fit_choice {states : List Doc} : fit strict mode width (.choice states) =
    match mode.measured? states with
    | some d => fit strict mode width d
    | none => .stateless := by
  cases mode with
  | broken =>
    rw [fit]
    exact fitLast_eq states
  | flat =>
    rw [fit]
    cases states <;> simp [fitFirst, Mode.measured?]

end Measure

/-- The state that a choice is measured as is one of its states. -/
theorem Mode.mem_of_measured? {mode : Mode} {states : List Doc} {d : Doc}
    (h : mode.measured? states = some d) : d ∈ states := by
  cases mode with
  | broken => exact List.mem_of_getLast? h
  | flat => exact List.mem_of_head? h

section Lookahead

variable {strict : Bool} {a a' : Lookahead} {width : Nat} {stack : List (Mode × Doc)}
  {rest : List Command} {mode : Mode}

/-- What is put in front is measured before the rest. -/
theorem Lookahead.fits?_push (ds : List Doc) :
    (Lookahead.push ⟨width, stack, rest⟩ mode ds).fits? strict =
      ((fitAll strict mode width ds).andThen
        (fitCommands strict · (commands ⟨width, stack, rest⟩))).answer? := by
  rw [← fitCommands_append 0, ← fits?_natCast]
  simp [push, Lookahead.fits?, commands, Function.comp_def]

/-- Looking at one more document first. -/
theorem Lookahead.fits?_push_single (d : Doc) :
    (Lookahead.push ⟨width, stack, rest⟩ mode [d]).fits? strict =
      ((fit strict mode width d).andThen
        (fitCommands strict · (commands ⟨width, stack, rest⟩))).answer? := by
  rw [fits?_push, fitAll_single]

/-- Looking at the document on top of the stack. -/
theorem Lookahead.fits?_cons (d : Doc) :
    Lookahead.fits? strict ⟨width, (mode, d) :: stack, rest⟩ =
      ((fit strict mode width d).andThen
        (fitCommands strict · (commands ⟨width, stack, rest⟩))).answer? :=
  fits?_natCast.trans (congrArg Fit.answer? fitCommands_cons)

/-- Measuring a document in one step and then what it leaves comes to the same answer as
measuring it along its structure. -/
theorem Lookahead.fits?_measure (d : Doc) :
    (Lookahead.measure strict ⟨width, stack, rest⟩ mode d).fits? strict =
      ((fit strict mode width d).andThen
        (fitCommands strict · (commands ⟨width, stack, rest⟩))).answer? := by
  cases d with
  | text s =>
    rw [fit]
    exact fits?_sub s.length
  | concat parts | fill parts =>
    rw [fit]
    exact fits?_push parts
  | indent contents =>
    rw [fit]
    exact fits?_push_single contents
  | choice states =>
    rw [measure, fit_choice]
    cases mode.measured? states with
    | some d => exact fits?_push_single d
    | none => rfl
  | group marked contents =>
    rw [measure, fit]
    split
    · rfl
    · exact fits?_push_single contents
  | line style =>
    rw [measure, fit]
    split
    · rfl
    · split
      · exact fits?_natCast
      · exact fits?_sub 1
  | suffix contents | breakParent =>
    rw [fit]
    exact fits?_natCast

/-- A step of a look-ahead does not change the answer. -/
theorem Lookahead.fits?_step (a : Lookahead) : (a.step strict).fits? strict = a.fits? strict := by
  obtain ⟨room, stack, rest⟩ := a
  by_cases hroom : room < 0
  · rw [step, if_pos hroom]
    exact (fits?_of_neg hroom).symm
  · obtain ⟨width, rfl⟩ := Int.eq_ofNat_of_zero_le (Int.not_lt.mp hroom)
    rw [step, if_neg hroom]
    match stack, rest with
    | (mode, d) :: stack, rest => exact (fits?_measure d).trans (fits?_cons d).symm
    | [], c :: rest =>
      refine (fits?_cons c.doc).trans (Eq.trans ?_ fits?_natCast.symm)
      exact congrArg Fit.answer? fitCommands_cons.symm
    | [], [] => exact (@fits?_natCast strict width []).symm

/-- A document that is put on the stack adds its weight. -/
theorem Lookahead.weight_push (a : Lookahead) (ds : List Doc) :
    (a.push mode ds).weight = weightAll ds + a.weight := by
  simp only [weight, push, List.map_append, List.map_map, Function.comp_def, List.map_id',
    weightAll_append]
  omega

/-- Measuring a document leaves less than the document weighs. -/
theorem Lookahead.weight_measure {d : Doc} (h : a.measure strict mode d = .next a') :
    a'.weight < d.weight + a.weight := by
  cases d with
  | choice states =>
    rw [measure] at h
    split at h
    · rename_i d hd
      cases h
      have := weight_le_weightAll (Mode.mem_of_measured? hd)
      simp only [weight_push, weightAll, Doc.weight]
      omega
    · cases h
  | group marked contents =>
    rw [measure] at h
    split at h
    · cases h
    · cases h
      simp only [weight_push, weightAll, Doc.weight]
      omega
  | line style =>
    rw [measure] at h
    split at h
    · cases h
    · split at h <;> cases h <;> simp [weight, Doc.weight]
  | concat parts | fill parts | indent contents =>
    cases h
    simp only [weight_push, weightAll, Doc.weight]
    omega
  | text s | suffix contents | breakParent =>
    cases h
    simp only [weight, Doc.weight]
    omega

/-- A step of a look-ahead lowers the weight of what is left. -/
theorem Lookahead.weight_step (h : a.step strict = .next a') : a'.weight < a.weight := by
  obtain ⟨room, stack, rest⟩ := a
  rw [step] at h
  split at h
  · cases h
  · match stack, rest with
    | (mode, d) :: stack, rest =>
      have := weight_measure h
      simp only [weight, List.map_cons, weightAll] at this ⊢
      omega
    | [], c :: rest =>
      cases h
      simp only [weight, List.map_cons, List.map_nil, weightAll, List.length_cons]
      omega
    | [], [] => cases h

/-- Looking ahead for more steps than what is left weighs comes to the answer that measuring
along the structure gives, and to none if that meets a choice without a state. -/
theorem Lookahead.run_eq_fits? {fuel : Nat} (hfuel : a.weight < fuel) :
    a.run strict fuel = a.fits? strict := by
  induction fuel generalizing a with
  | zero => omega
  | succ fuel ih =>
    have hkept := @fits?_step strict a
    rw [run]
    cases hstep : a.step strict with
    | next a' =>
      have := weight_step hstep
      rw [hstep] at hkept
      exact (ih (by omega)).trans hkept
    | answer fits => rwa [hstep] at hkept
    | stateless => rwa [hstep] at hkept

/-- The look-ahead at a command and what follows it answers whether they fit. -/
theorem Lookahead.run_start {room : Int} {c : Command} {fuel : Nat}
    (hfuel : (start room c rest).weight < fuel) :
    (start room c rest).run strict fuel = Doc.fits? strict room (c :: rest) :=
  run_eq_fits? hfuel

end Lookahead

/-! ## The renderer -/

/-- The look-aheads that a step may start. A group that is measured, and every state but the
last of a choice that is, are looked at with what follows them on the stack; the first content
of a fill and the pair that it begins, by themselves and not with a broken group in them. -/
inductive State.LooksAhead (options : Options) (s : State) : Bool → Lookahead → Prop
  | group {l m d rest} (hs : s.stack = ⟨l, m, .group false d⟩ :: rest)
    (hm : m = .broken ∨ s.remeasure = true) :
    LooksAhead options s false (.start (s.room options) ⟨l, .flat, d⟩ rest)
  | choice {l m d states rest} (hs : s.stack = ⟨l, m, .choice states⟩ :: rest)
    (hm : m = .broken ∨ s.remeasure = true) (hd : d ∈ states.dropLast) :
    LooksAhead options s false (.start (s.room options) ⟨l, .flat, d⟩ rest)
  | content {l m a ds rest} (hs : s.stack = ⟨l, m, .fill (a :: ds)⟩ :: rest) :
    LooksAhead options s true (.start (s.room options) ⟨l, .flat, a⟩ [])
  | pair {l m a b c ds rest} (hs : s.stack = ⟨l, m, .fill (a :: b :: c :: ds)⟩ :: rest) :
    LooksAhead options s true (.start (s.room options) ⟨l, .flat, .concat [a, b, c]⟩ [])

/-- A look-ahead at sound documents comes to an answer. -/
theorem Lookahead.exists_run_start {p : Prop} (strict : Bool) (room : Int) {c : Command}
    {rest : List Command} (h : SoundAll p ((c :: rest).map Command.doc)) :
    ∃ fits, ∀ fuel, (start room c rest).weight < fuel →
      (start room c rest).run strict fuel = some fits := by
  obtain ⟨fits, hfits⟩ := exists_fits strict room (c :: rest) h
  exact ⟨fits, fun fuel hfuel => (run_start hfuel).trans hfits⟩

/-- A look-ahead started from a sound state comes to an answer. -/
theorem State.LooksAhead.exists_run {p : Prop} {options : Options} {s : State} {strict : Bool}
    {a : Lookahead} (h : s.LooksAhead options strict a) (hsound : s.Sound p) :
    ∃ fits, ∀ fuel, a.weight < fuel → a.run strict fuel = some fits := by
  have hstack := hsound.1
  cases h with
  | group hs hm =>
    rw [hs] at hstack
    exact Lookahead.exists_run_start _ _ hstack
  | choice hs hm hd =>
    rw [hs] at hstack
    have hstates := soundAll_iff.mp hstack.1.2
    exact Lookahead.exists_run_start _ _ ⟨hstates _ (List.dropLast_subset _ hd), hstack.2⟩
  | content hs =>
    rw [hs] at hstack
    exact Lookahead.exists_run_start _ _ ⟨hstack.1.1, trivial⟩
  | pair hs =>
    rw [hs] at hstack
    obtain ⟨⟨ha, hb, hc, -⟩, -⟩ := hstack
    exact Lookahead.exists_run_start _ _ ⟨⟨ha, hb, hc, trivial⟩, trivial⟩

/-- If every choice in a document has a state, rendering it comes to an end: the renderer
stops, after no more steps than its first state weighs, with nothing left on the stack and
nothing waiting, and so does every look-ahead that one of its steps starts. -/
theorem rendering_ends (options : Options) {d : Doc} (hd : d.Sound True) :
    (∃ t : State, t.stack = [] ∧ t.suffixes = [] ∧
      (∀ fuel, (State.initial d.markBreaks).weight ≤ fuel →
        (State.initial d.markBreaks).run options fuel = some t) ∧
      render? options d = some (String.ofList t.printed.reverse)) ∧
    ∀ s, State.Steps options (.initial d.markBreaks) s → ∀ strict a,
      s.LooksAhead options strict a →
        ∃ fits, ∀ fuel, a.weight < fuel → a.run strict fuel = some fits := by
  have hsound : (State.initial d.markBreaks).Sound True :=
    ⟨⟨sound_markBreaks hd, trivial⟩, trivial⟩
  constructor
  · obtain ⟨t, hrun, -, hstack, hsuffixes⟩ := exists_run options hsound (Nat.le_refl _)
    refine ⟨t, hstack, hsuffixes, fun fuel hfuel => ?_, ?_⟩
    · exact (steps_of_run _ hrun).run hstack hsuffixes hfuel
    · rw [render?, hrun, Option.map_some]
  · intro s hs strict a ha
    exact ha.exists_run (hsound.steps hs)

/-- Suffixes in a suffix, with certain breaks in both, in front of fills of an odd and of an
even number of parts and of a choice. -/
def nestedNotes : Doc :=
  .concat [.suffix (.concat ["n", .suffix (.concat ["m", hardline]), hardline]),
    .fill ["a", space, "b"], .fill ["c", space], .choice [.group false "s", "t"], "e"]

/-- A document that puts suffixes off again and again is rendered to its end. -/
theorem rendering_ends_nestedNotes :
    nestedNotes.Sound True ∧
      (∃ t : State, t.stack = [] ∧ t.suffixes = [] ∧
        (∀ fuel, (State.initial nestedNotes.markBreaks).weight ≤ fuel →
          (State.initial nestedNotes.markBreaks).run {} fuel = some t) ∧
        render? {} nestedNotes = some (String.ofList t.printed.reverse)) ∧
      ∀ s, State.Steps {} (.initial nestedNotes.markBreaks) s → ∀ strict a,
        s.LooksAhead {} strict a →
          ∃ fits, ∀ fuel, a.weight < fuel → a.run strict fuel = some fits := by
  have hsound : nestedNotes.Sound True := by simp [nestedNotes, hardline, space]
  exact ⟨hsound, rendering_ends {} hsound⟩

end JavaFormat.Doc
