import JavaFormat.Proofs.Doc.Machine

/-!
# Lines that were measured

When the renderer measures a group, or a state of a choice, and prints it flat, the
line it stands on ends in time, with what follows on it. The measure looks ahead at
commands that are decided anew when they are carried out, and yet it stays true: what it
took to be broken is either printed so or has passed a measure of its own, and what it
took to be flat is printed flat as long as no line has begun in between.

So the invariant of a measured line is that what is left of it would pass the measure
(`State.Fits`). Every step keeps it or ends the line.
-/

namespace JavaFormat.Doc

mutual

/-- Nothing is filled or put off in a document, and its texts have no line feeds. -/
def Plain : Doc → Prop
  | .text s => '\n' ∉ s.toList
  | .concat parts => PlainAll parts
  | .group _ contents => Plain contents
  | .choice states => PlainAll states
  | .indent contents => Plain contents
  | .fill _ => False
  | .line _ => True
  | .suffix _ => False
  | .breakParent => True

/-- Several documents are plain. -/
def PlainAll : List Doc → Prop
  | [] => True
  | d :: ds => Plain d ∧ PlainAll ds

end

attribute [simp] Plain PlainAll

/-- The documents of a list are plain if each of them is. -/
theorem plainAll_iff {ds : List Doc} : PlainAll ds ↔ ∀ d ∈ ds, d.Plain := by
  induction ds with
  | nil => simp
  | cons d ds ih => simp [ih]

mutual

/-- Marking groups keeps a document plain. -/
theorem plain_markBreaks : ∀ {d : Doc}, d.Plain → d.markBreaks.Plain
  | .text _, h => h
  | .concat _, h => plainAll_markBreaksAll h
  | .group _ contents, h => plain_markBreaks (d := contents) h
  | .choice _, h => plainAll_markBreaksAll h
  | .indent contents, h => plain_markBreaks (d := contents) h
  | .line _, _ => trivial
  | .breakParent, _ => trivial

/-- Marking the groups of plain documents leaves them plain. -/
theorem plainAll_markBreaksAll : ∀ {ds : List Doc}, PlainAll ds → PlainAll (markBreaksAll ds)
  | [], _ => trivial
  | _ :: _, h => ⟨plain_markBreaks h.1, plainAll_markBreaksAll h.2⟩

end

/-! ## States without fills and suffixes -/

/-- The commands in the place of a plain command are plain. -/
theorem Expansion.plain {c : Command} {cs : List Command} (h : Expansion c cs)
    (hc : c.doc.Plain) : ∀ c' ∈ cs, c'.doc.Plain := by
  cases h with
  | concat =>
    intro c' hc'
    obtain ⟨d, hd, rfl⟩ := List.mem_map.mp hc'
    exact plainAll_iff.mp hc d hd
  | choice hd m' => exact List.forall_mem_singleton.mpr (plainAll_iff.mp hc _ hd)
  | indent => exact List.forall_mem_singleton.mpr hc
  | group marked m' => exact List.forall_mem_singleton.mpr hc
  | breakParent => simp
  | _ => exact hc.elim

/-- Every command of a state is plain, nothing waits, and the column is the length of the
line that is being printed. -/
structure State.Plain (s : State) : Prop where
  stack : ∀ c ∈ s.stack, c.doc.Plain
  suffixes : s.suffixes = []
  column : (s.printed.takeWhile (· != '\n')).length = s.column

/-- A text without line feeds makes its line as much longer as it is long. -/
theorem length_takeWhile_print {w : String} (hw : '\n' ∉ w.toList) (printed : List Char) :
    ((w.toList.reverse ++ printed).takeWhile (· != '\n')).length =
      (printed.takeWhile (· != '\n')).length + w.length := by
  have hall : ∀ c ∈ w.toList.reverse, (c != '\n') = true := by
    intro c hc
    have hne : c ≠ '\n' := by
      rintro rfl
      exact hw (List.mem_reverse.mp hc)
    simp [hne]
  rw [List.takeWhile_append_of_pos hall, List.length_append, List.length_reverse,
    String.length_toList]
  omega

/-- A new line is as long as its indentation, which is where its column begins. -/
theorem length_takeWhile_breakLine (options : Options) (s : State) (level : Nat) (literal : Bool) :
    ((s.breakLine options level literal).printed.takeWhile (· != '\n')).length =
      (s.breakLine options level literal).column := by
  unfold State.breakLine
  split
  · simp
  · have hall : ∀ c ∈ List.replicate (level * options.tabWidth) ' ', (c != '\n') = true := by
      intro c hc
      obtain rfl := List.eq_of_mem_replicate hc
      decide
    simp [List.takeWhile_append_of_pos hall]

/-- A plain state stays plain. -/
theorem Move.plain {options : Options} {s s' : State} (h : Move options s s') (hs : s.Plain) :
    s'.Plain := by
  obtain ⟨hstack, hsuffixes, hcolumn⟩ := hs
  cases h with
  | expand hs hc again =>
    rw [hs] at hstack
    obtain ⟨hc₀, hrest⟩ := List.forall_mem_cons.mp hstack
    exact ⟨List.forall_mem_append.mpr ⟨hc.plain hc₀, hrest⟩, hsuffixes, hcolumn⟩
  | text hs =>
    rw [hs] at hstack
    obtain ⟨hw, hrest⟩ := List.forall_mem_cons.mp hstack
    refine ⟨hrest, hsuffixes, ?_⟩
    rw [State.print, length_takeWhile_print hw, hcolumn]
  | defer hs =>
    rw [hs] at hstack
    exact (List.forall_mem_cons.mp hstack).1.elim
  | glue hs hh hsoft =>
    rw [hs] at hstack
    exact ⟨(List.forall_mem_cons.mp hstack).2, hsuffixes, hcolumn⟩
  | blank hs hh hsoft =>
    rw [hs] at hstack
    refine ⟨(List.forall_mem_cons.mp hstack).2, hsuffixes, ?_⟩
    rw [State.print, length_takeWhile_print (by decide), hcolumn]
  | flush hs hb hw again => exact absurd hsuffixes hw
  | newline hs hb hw again =>
    rw [hs] at hstack
    refine ⟨?_, ?_, length_takeWhile_breakLine ..⟩
    · rw [State.breakLine_stack]
      exact (List.forall_mem_cons.mp hstack).2
    · rw [State.breakLine_suffixes]
      exact hsuffixes
  | last hs hw => exact absurd hsuffixes hw

/-- The number of line feeds printed so far. -/
def State.lineFeeds (s : State) : Nat := s.printed.count '\n'

/-- A new line adds a line feed, and what it takes away has none. -/
theorem lineFeeds_breakLine (options : Options) (s : State) (level : Nat) (literal : Bool) :
    (s.breakLine options level literal).lineFeeds = s.lineFeeds + 1 := by
  have hpadding : ∀ c, Text.isPadding c = true → (c == '\n') = false := by
    intro c hc
    have hne : c ≠ '\n' := by
      rintro rfl
      exact absurd hc (by decide)
    simpa using hne
  simp only [State.lineFeeds, List.count_eq_length_filter,
    filter_printed_breakLine _ _ _ _ hpadding, List.length_append]
  simp [Nat.add_comm]

/-- Line feeds stay. -/
theorem Move.lineFeeds_le {options : Options} {s s' : State} (h : Move options s s') :
    s.lineFeeds ≤ s'.lineFeeds := by
  cases h with
  | text hs => simp [State.lineFeeds, State.print]
  | blank hs hh hsoft => simp [State.lineFeeds, State.print]
  | newline hs hb hw again =>
    rw [lineFeeds_breakLine]
    exact Nat.le_succ _
  | _ => exact Nat.le_refl _

/-! ## What is left of a line -/

/-- What was measured ends in time. -/
def Fit.InTime : Fit → Prop
  | .room _ => True
  | .ended => True
  | .over => False
  | .stateless => False

section Fit

variable {width level : Nat} {mode : Mode} {rest : List Command} {d : Doc} {ds : List Doc}

/-- Commands fit if the line is not too long yet and they end in time. -/
theorem fits_eq_true_iff {room : Int} {cs : List Command} :
    fits? false room cs = some true ↔
      ∃ width : Nat, room = width ∧ (fitCommands false width cs).InTime := by
  unfold fits?
  split
  · rename_i hroom
    simp only [Option.some.injEq, Bool.false_eq_true, false_iff, not_exists, not_and]
    intro width hw
    omega
  · rename_i hroom
    have hw : room = room.toNat := by omega
    constructor
    · intro h
      refine ⟨room.toNat, hw, ?_⟩
      cases hfit : fitCommands false room.toNat cs <;> simp [hfit, Fit.InTime] at h ⊢
    · rintro ⟨width, rfl, h⟩
      rw [Int.toNat_natCast]
      cases hfit : fitCommands false width cs <;> simp [hfit, Fit.InTime] at h ⊢

/-- A concatenation is measured part by part. -/
theorem fitCommands_concat : fitCommands false width (⟨level, mode, .concat ds⟩ :: rest) =
    fitCommands false width (ds.map (⟨level, mode, ·⟩) ++ rest) := by
  rw [fitCommands_append, fitCommands_cons, fit]

/-- An indented document fits as it does one level deeper. -/
theorem fitCommands_indent : fitCommands false width (⟨level, mode, .indent d⟩ :: rest) =
    fitCommands false width (⟨level + 1, mode, d⟩ :: rest) := by
  simp [fitCommands, fit]

/-- A group is measured as its contents, broken if it is marked. -/
theorem fitCommands_group {marked : Bool} :
    fitCommands false width (⟨level, mode, .group marked d⟩ :: rest) =
      fitCommands false width (⟨level, mode.inside marked, d⟩ :: rest) := by
  simp [fitCommands, fit]

/-- A choice is measured as its first state in flat mode. -/
theorem fitCommands_choice_flat :
    fitCommands false width (⟨level, .flat, .choice (d :: ds)⟩ :: rest) =
      fitCommands false width (⟨level, .flat, d⟩ :: rest) := by
  simp [fitCommands, fit, fitFirst]

/-- A choice of one state is measured as that state. -/
theorem fitCommands_choice_single :
    fitCommands false width (⟨level, .broken, .choice [d]⟩ :: rest) =
      fitCommands false width (⟨level, .broken, d⟩ :: rest) := by
  simp [fitCommands, fit, fitLast]

/-- In broken mode only the last state of a choice is measured. -/
theorem fitCommands_choice_tail {e : Doc} :
    fitCommands false width (⟨level, .broken, .choice (d :: e :: ds)⟩ :: rest) =
      fitCommands false width (⟨level, .broken, .choice (e :: ds)⟩ :: rest) := by
  simp [fitCommands, fit, fitLast]

/-- A forced break takes no room. -/
theorem fitCommands_breakParent :
    fitCommands false width (⟨level, mode, .breakParent⟩ :: rest) =
      fitCommands false width rest := by
  simp [fitCommands, fit]

end Fit

/-- The state of a choice that is printed flat was measured. -/
theorem fits_of_chooseState {room : Int} {level : Nat} {rest : List Command} {states : List Doc}
    {c : Command} (h : chooseState room level rest states = some c) (hflat : c.mode = .flat) :
    fits? false room (c :: rest) = some true := by
  fun_induction chooseState room level rest states with
  | case1 => cases h
  | case2 last =>
    cases h
    cases hflat
  | case3 d ds _ hfits =>
    cases h
    exact hfits
  | case4 d ds _ _ ih => exact ih h
  | case5 => cases h

/-- If a choice fits in broken mode, the state of it that is printed fits: it was
measured, or it is the last state, which the choice was measured as. -/
theorem inTime_of_chooseState {width level : Nat} {rest : List Command} {states : List Doc}
    {c : Command} (h : chooseState width level rest states = some c)
    (hfit : (fitCommands false width (⟨level, .broken, .choice states⟩ :: rest)).InTime) :
    (fitCommands false width (c :: rest)).InTime := by
  fun_induction chooseState width level rest states with
  | case1 => cases h
  | case2 last =>
    cases h
    rw [fitCommands_choice_single] at hfit
    exact hfit
  | case3 d ds _ hfits =>
    cases h
    obtain ⟨width', hw, hfits⟩ := fits_eq_true_iff.mp hfits
    obtain rfl : width = width' := Int.ofNat_inj.mp hw
    exact hfits
  | case4 d ds hne _ ih =>
    cases ds with
    | nil => exact absurd rfl hne
    | cons e es =>
      rw [fitCommands_choice_tail] at hfit
      exact ih h hfit
  | case5 => cases h

/-- What is left of the line fits, and groups are printed as they were measured. -/
structure State.Fits (options : Options) (s : State) : Prop where
  inside : s.column ≤ options.printWidth
  inTime : (fitCommands false (options.printWidth - s.column) s.stack).InTime
  settled : s.remeasure = false

/-- A state whose commands passed the measure. -/
theorem State.Fits.of_fits {options : Options} {s : State}
    (h : fits? false (s.room options) s.stack = some true) (hs : s.remeasure = false) :
    s.Fits options := by
  obtain ⟨width, hroom, hfit⟩ := fits_eq_true_iff.mp h
  rw [State.room] at hroom
  obtain rfl : width = options.printWidth - s.column := by omega
  exact ⟨by omega, hfit, hs⟩

/-- A text that is measured in time is printed inside the width. -/
theorem inTime_text {width level : Nat} {mode : Mode} {w : String} {rest : List Command}
    (h : (fitCommands false width (⟨level, mode, .text w⟩ :: rest)).InTime) :
    w.length ≤ width ∧ (fitCommands false (width - w.length) rest).InTime := by
  rw [fitCommands, fit] at h
  by_cases hw : w.length ≤ width
  · rw [if_pos hw] at h
    exact ⟨hw, h⟩
  · rw [if_neg hw] at h
    exact h.elim

/-- A break that is left out in time leaves room for the space it prints. -/
theorem inTime_line {width level : Nat} {style : LineStyle} {rest : List Command}
    (h : (fitCommands false width (⟨level, .flat, .line style⟩ :: rest)).InTime)
    (hh : style.hard = false) :
    (style.soft = true → (fitCommands false width rest).InTime) ∧
      (style.soft = false → 1 ≤ width ∧ (fitCommands false (width - 1) rest).InTime) := by
  have hflat : ¬(decide (Mode.flat = .broken) || style.hard) = true := by simp [hh]
  rw [fitCommands, fit, if_neg hflat] at h
  refine ⟨fun hsoft => ?_, fun hsoft => ?_⟩
  · rw [if_pos hsoft] at h
    exact h
  · rw [if_neg (by simp [hsoft])] at h
    by_cases hw : 1 ≤ width
    · rw [if_pos hw] at h
      exact ⟨hw, h⟩
    · rw [if_neg hw] at h
      exact h.elim

/-- Commands in the place of a plain command that fits are such that the line still fits:
what was taken to be broken may have been measured anew. -/
theorem State.Fits.expand {options : Options} {s s' : State} (h : s.Fits options)
    {c : Command} {cs rest : List Command} (hstack : s.stack = c :: rest) (hc : Expansion c cs)
    (hplain : c.doc.Plain) (hstep : s.step options = .next s') : s'.Fits options := by
  obtain ⟨stack, suffixes, printed, column, remeasure⟩ := s
  obtain ⟨hinside, hfit, hsettled⟩ := h
  dsimp only at hstack hinside hfit hsettled
  subst hstack hsettled
  cases hc with
  | concat =>
    cases hstep
    rw [fitCommands_concat] at hfit
    exact ⟨hinside, hfit, rfl⟩
  | indent =>
    cases hstep
    rw [fitCommands_indent] at hfit
    exact ⟨hinside, hfit, rfl⟩
  | @group l m d marked m' =>
    rw [fitCommands_group] at hfit
    cases m with
    | flat =>
      cases hstep
      exact ⟨hinside, hfit, rfl⟩
    | broken =>
      cases marked with
      | true =>
        cases hstep
        exact ⟨hinside, hfit, rfl⟩
      | false =>
        simp only [State.step, State.execute, reduceCtorEq, decide_false, Bool.false_and,
          Bool.false_eq_true, if_false] at hstep
        split at hstep
        · rename_i fits hfits
          cases hstep
          cases fits with
          | true => exact .of_fits hfits rfl
          | false => exact ⟨hinside, hfit, rfl⟩
        · cases hstep
  | @choice l m d states hd m' =>
    cases m with
    | flat =>
      cases states with
      | nil => cases hstep
      | cons d ds =>
        cases hstep
        rw [fitCommands_choice_flat] at hfit
        exact ⟨hinside, hfit, rfl⟩
    | broken =>
      have hroom : State.room options ⟨rest, suffixes, printed, column, false⟩ =
          (options.printWidth - column : Nat) := by
        simp only [State.room]
        omega
      simp only [State.step, State.execute, reduceCtorEq, decide_false, Bool.false_and,
        Bool.false_eq_true, if_false, hroom] at hstep
      split at hstep
      · rename_i chosen hchosen
        cases hstep
        exact ⟨hinside, inTime_of_chooseState hchosen hfit, rfl⟩
      · cases hstep
  | breakParent =>
    cases hstep
    rw [fitCommands_breakParent] at hfit
    exact ⟨hinside, hfit, rfl⟩
  | _ => exact hplain.elim

/-- A step goes on with a line that fits, or ends it. -/
theorem State.Fits.step {options : Options} {s s' : State} (h : s.Fits options) (hs : s.Plain)
    (hstep : s.step options = .next s') : s'.Fits options ∨ s.lineFeeds < s'.lineFeeds := by
  cases move_of_step hstep with
  | expand hstack hc again =>
    have hplain := hs.stack _ (hstack ▸ List.mem_cons_self)
    exact Or.inl (h.expand hstack hc hplain hstep)
  | text hstack =>
    obtain ⟨hinside, hfit, hsettled⟩ := h
    rw [hstack] at hfit
    obtain ⟨hw, hrest⟩ := inTime_text hfit
    refine Or.inl ⟨?_, ?_, hsettled⟩
    · simp only [State.print]
      omega
    · simpa only [State.print, Nat.sub_sub] using hrest
  | @defer l m d rest hstack =>
    have hplain : Doc.Plain (.suffix d) := hs.stack ⟨l, m, .suffix d⟩ (hstack ▸ List.mem_cons_self)
    exact hplain.elim
  | glue hstack hh hsoft =>
    obtain ⟨hinside, hfit, hsettled⟩ := h
    rw [hstack] at hfit
    exact Or.inl ⟨hinside, (inTime_line hfit hh).1 hsoft, hsettled⟩
  | blank hstack hh hsoft =>
    obtain ⟨hinside, hfit, hsettled⟩ := h
    rw [hstack] at hfit
    obtain ⟨hw, hrest⟩ := (inTime_line hfit hh).2 hsoft
    have hlength : " ".length = 1 := rfl
    refine Or.inl ⟨?_, ?_, hsettled⟩
    · simp only [State.print, hlength]
      omega
    · simpa only [State.print, hlength, Nat.sub_sub] using hrest
  | flush hstack hb hw again => exact absurd hs.suffixes hw
  | newline hstack hb hw again =>
    right
    rw [lineFeeds_breakLine]
    exact Nat.lt_succ_self _
  | last hstack hw => exact absurd hs.suffixes hw

/-! ## The runs of the renderer -/

/-- The states that the renderer comes to from a state. -/
abbrev State.Steps (options : Options) : State → State → Prop :=
  Relation.ReflTransGen fun s s' => s.step options = .next s'

/-- A step that measures what is on top of the stack, a group or a choice, and goes on
with its contents or one of its states flat. It measures in broken mode, and in flat mode
behind a certain break. -/
inductive State.MeasuresFlat (options : Options) (s s' : State) : Prop
  | group {l m marked d rest} (hs : s.stack = ⟨l, m, .group marked d⟩ :: rest)
    (hm : m = .broken ∨ s.remeasure = true) (hstep : s.step options = .next s')
    (hflat : s'.stack = ⟨l, .flat, d⟩ :: rest)
  | choice {l m states d rest} (hs : s.stack = ⟨l, m, .choice states⟩ :: rest)
    (hm : m = .broken ∨ s.remeasure = true) (hstep : s.step options = .next s')
    (hflat : s'.stack = ⟨l, .flat, d⟩ :: rest)

/-- A line that was measured and is printed flat fits. -/
theorem State.MeasuresFlat.fits {options : Options} {s s' : State}
    (h : s.MeasuresFlat options s') : s'.Fits options := by
  obtain ⟨stack, suffixes, printed, column, remeasure⟩ := s
  have hmeasured : ∀ m : Mode, m = .broken ∨ remeasure = true →
      ¬(decide (m = .flat) && !remeasure) = true := by
    rintro m (rfl | rfl) <;> simp
  cases h with
  | @group l m marked d rest hs hm hstep hflat =>
    obtain rfl : stack = ⟨l, m, .group marked d⟩ :: rest := hs
    simp only [State.step, State.execute, if_neg (hmeasured m hm)] at hstep
    cases marked with
    | true =>
      cases hstep
      cases hflat
    | false =>
      simp only [Bool.false_eq_true, if_false] at hstep
      split at hstep
      · rename_i fits hfits
        cases hstep
        cases fits with
        | true => exact .of_fits hfits rfl
        | false => cases hflat
      · cases hstep
  | @choice l m states d rest hs hm hstep hflat =>
    obtain rfl : stack = ⟨l, m, .choice states⟩ :: rest := hs
    simp only [State.step, State.execute, if_neg (hmeasured m hm)] at hstep
    split at hstep
    · rename_i chosen hchosen
      cases hstep
      obtain rfl : chosen = ⟨l, .flat, d⟩ := (List.cons_eq_cons.mp hflat).1
      exact .of_fits (fits_of_chooseState hchosen rfl) rfl
    · cases hstep

/-- Plain states lead to plain states. -/
theorem State.Plain.steps {options : Options} {s t : State} (hs : s.Plain)
    (h : State.Steps options s t) : t.Plain := by
  induction h with
  | refl => exact hs
  | tail _ hstep ih => exact (move_of_step hstep).plain ih

/-- Sound states lead to sound states. -/
theorem State.Sound.steps {p : Prop} {options : Options} {s t : State} (hs : s.Sound p)
    (h : State.Steps options s t) : t.Sound p := by
  induction h with
  | refl => exact hs
  | tail _ hstep ih => exact (move_of_step hstep).sound ih

/-- Line feeds stay, however far the renderer goes on. -/
theorem State.Steps.lineFeeds_le {options : Options} {s t : State} (h : State.Steps options s t) :
    s.lineFeeds ≤ t.lineFeeds := by
  induction h with
  | refl => exact Nat.le_refl _
  | tail _ hstep ih => exact Nat.le_trans ih (move_of_step hstep).lineFeeds_le

/-- A line that fits goes on fitting until it ends. -/
theorem State.Fits.steps {options : Options} {s t : State} (h : s.Fits options) (hs : s.Plain)
    (ht : State.Steps options s t) : t.Fits options ∨ s.lineFeeds < t.lineFeeds := by
  induction ht with
  | refl => exact Or.inl h
  | @tail u t hsteps hstep ih =>
    have hle := (move_of_step hstep).lineFeeds_le
    have hbefore := State.Steps.lineFeeds_le hsteps
    rcases ih with hfits | hended
    · rcases hfits.step (hs.steps hsteps) hstep with hfits | hended
      · exact Or.inl hfits
      · exact Or.inr (by omega)
    · exact Or.inr (by omega)

/-- Nothing is printed past the width on a line that was measured and is printed flat,
from the decision on up to the next line feed or the end: what follows the group, or the
state of the choice, on this line is inside the width too. -/
theorem length_line_le_printWidth (options : Options) {d : Doc} (hd : d.Plain) {s s' t : State}
    (hs : State.Steps options (.initial d.markBreaks) s) (hflat : s.MeasuresFlat options s')
    (ht : State.Steps options s' t) (hline : t.lineFeeds = s'.lineFeeds) :
    (t.printed.takeWhile (· != '\n')).length ≤ options.printWidth := by
  have hinitial : (State.initial d.markBreaks).Plain :=
    ⟨List.forall_mem_singleton.mpr (plain_markBreaks hd), rfl, rfl⟩
  have hstep : s.step options = .next s' := by
    cases hflat <;> assumption
  have hplain : s'.Plain := (move_of_step hstep).plain (hinitial.steps hs)
  have hcolumn := (hplain.steps ht).column
  rcases hflat.fits.steps hplain ht with hfits | hended
  · rw [hcolumn]
    exact hfits.inside
  · omega

/-- What a run of so many steps comes to. -/
theorem steps_of_run {options : Options} (fuel : Nat) {s t : State}
    (h : s.run options fuel = some t) : State.Steps options s t := by
  induction fuel generalizing s with
  | zero =>
    cases h
    exact .refl
  | succ fuel ih =>
    rw [State.run] at h
    split at h
    · cases h
      exact .refl
    · cases h
    · rename_i hstep
      exact .head hstep (ih h)

/-- Two letters with a space between them. -/
def shortGroup : Doc := .group false (.concat ["a", space, "b"])

/-- A group of three characters is printed flat on a line of three. -/
theorem length_line_le_printWidth_shortGroup :
    shortGroup.Plain ∧ ∃ s s' t : State,
      State.Steps { printWidth := 3 } (.initial shortGroup.markBreaks) s ∧
        s.MeasuresFlat { printWidth := 3 } s' ∧ State.Steps { printWidth := 3 } s' t ∧
        t.printed = ['b', ' ', 'a'] ∧ t.lineFeeds = s'.lineFeeds ∧
        (t.printed.takeWhile (· != '\n')).length ≤ 3 := by
  have hplain : shortGroup.Plain := by simp [shortGroup, space]
  have hflat : (State.initial shortGroup.markBreaks).MeasuresFlat { printWidth := 3 }
      ⟨[⟨0, .flat, .concat ["a", space, "b"]⟩], [], [], 0, false⟩ :=
    .group rfl (.inl rfl) rfl rfl
  have hend : State.Steps { printWidth := 3 }
      ⟨[⟨0, .flat, .concat ["a", space, "b"]⟩], [], [], 0, false⟩
      ⟨[], [], ['b', ' ', 'a'], 3, false⟩ := steps_of_run 4 rfl
  exact ⟨hplain, _, _, _, .refl, hflat, hend, rfl, rfl,
    length_line_le_printWidth { printWidth := 3 } hplain .refl hflat hend rfl⟩

/-- A group that begins a new line and then holds a group, a text and a choice. -/
def choiceBehindGroup : Doc :=
  .group false (.concat [.line { hard := true }, .group false "x", "y", .choice ["ss", "t"]])

/-- In flat mode a choice is not measured again once the line has gone on behind a group:
its first state is printed whether it fits or not. -/
theorem choice_past_printWidth :
    choiceBehindGroup.Plain ∧ choiceBehindGroup.Sound False ∧
      ∃ s s' t : State, ∃ l m rest,
        State.Steps { printWidth := 3 } (.initial choiceBehindGroup.markBreaks) s ∧
        s.stack = ⟨l, m, .choice ["ss", "t"]⟩ :: rest ∧
        s.step { printWidth := 3 } = .next s' ∧ s'.stack = ⟨l, .flat, "ss"⟩ :: rest ∧
        State.Steps { printWidth := 3 } s' t ∧ t.lineFeeds = s'.lineFeeds ∧
        3 < (t.printed.takeWhile (· != '\n')).length := by
  refine ⟨by simp [choiceBehindGroup], by simp [choiceBehindGroup], ?_⟩
  refine ⟨⟨[⟨0, .flat, .choice ["ss", "t"]⟩], [], ['y', 'x', '\n'], 2, false⟩,
    ⟨[⟨0, .flat, "ss"⟩], [], ['y', 'x', '\n'], 2, false⟩,
    ⟨[], [], ['s', 's', 'y', 'x', '\n'], 4, false⟩, 0, .flat, [],
    steps_of_run 6 rfl, rfl, rfl, rfl, steps_of_run 1 rfl, ?_, ?_⟩
  · decide
  · decide

end JavaFormat.Doc
