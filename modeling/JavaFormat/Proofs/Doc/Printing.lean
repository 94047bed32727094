import JavaFormat.Proofs.Doc.Machine
import JavaFormat.Proofs.Doc.Script
import Mathlib.Data.List.TakeWhile

/-!
# What is printed for a script

A document is printed from left to right, but for what is put off: that comes in front of
the next line break, or at the end. `settle` puts the glyphs of a script in the order in
which they are printed. A place where the line does not break is printed as nothing or
as a space, and a break as a line feed and an indentation, in front of which blanks may
have been taken away. `Emits` says this of the characters printed so far, the last one
first, as the renderer keeps them.
-/

namespace JavaFormat.Doc

/-! ## What is put off -/

/-- The glyphs of a script as they are printed when `w` waits: it goes in front of the
next line break, or to the end. -/
def settle : List Glyph → List Cue → List Glyph
  | w, [] => w
  | w, .now (.char c) :: q => .char c :: settle w q
  | w, .now .gap :: q => .gap :: settle w q
  | w, .now .stop :: q => w ++ .stop :: settle [] q
  | w, .now .feed :: q => w ++ .feed :: settle [] q
  | w, .later gs :: q => settle (w ++ gs) q

section Settle

variable {g : Glyph} {gs : List Glyph}

/-- What waits goes in front of a break. -/
theorem settle_of_isBreak (hg : g.IsBreak) (w : List Glyph) (q : List Cue) :
    settle w (.now g :: q) = w ++ g :: settle [] q := by
  rcases hg with rfl | rfl <;> rfl

/-- A glyph that is no break is printed while other glyphs wait. -/
theorem settle_of_not_isBreak (hg : ¬g.IsBreak) (w : List Glyph) (q : List Cue) :
    settle w (.now g :: q) = g :: settle w q := by
  cases g with
  | char c => rfl
  | gap => rfl
  | stop => exact absurd (.inl rfl) hg
  | feed => exact absurd (.inr rfl) hg

/-- Nothing comes in between glyphs that are no breaks. -/
theorem settle_unbroken (hgs : ∀ g ∈ gs, ¬g.IsBreak) (w : List Glyph) (q : List Cue) :
    settle w (prompt gs ++ q) = gs ++ settle w q := by
  induction gs with
  | nil => rfl
  | cons g gs ih =>
    obtain ⟨hg, hgs⟩ := List.forall_mem_cons.mp hgs
    exact (settle_of_not_isBreak hg w _).trans (congrArg (g :: ·) (ih hgs))

/-- While nothing waits, what is not put off is printed where it stands. -/
theorem settle_prompt (gs : List Glyph) (q : List Cue) :
    settle [] (prompt gs ++ q) = gs ++ settle [] q := by
  induction gs with
  | nil => rfl
  | cons g gs ih =>
    have hfirst : settle [] (.now g :: (prompt gs ++ q)) = g :: settle [] (prompt gs ++ q) := by
      cases g <;> rfl
    exact hfirst.trans (congrArg (g :: ·) ih)

/-- What waits comes in at the first break, if there is one. -/
theorem settle_prompt_cases (gs w : List Glyph) (q : List Cue) :
    settle w (prompt gs ++ q) = gs ++ settle w q ∨
      ∃ gs₁ g gs₂, gs = gs₁ ++ g :: gs₂ ∧ (∀ h ∈ gs₁, ¬h.IsBreak) ∧ g.IsBreak ∧
        settle w (prompt gs ++ q) = gs₁ ++ (w ++ g :: (gs₂ ++ settle [] q)) := by
  induction gs with
  | nil => exact .inl rfl
  | cons g gs ih =>
    rw [prompt_cons, List.cons_append]
    by_cases hg : g.IsBreak
    · refine .inr ⟨[], g, gs, rfl, by simp, hg, ?_⟩
      rw [settle_of_isBreak hg, settle_prompt]
      rfl
    · rw [settle_of_not_isBreak hg]
      rcases ih with h | ⟨gs₁, g', gs₂, rfl, hgs₁, hg', h⟩
      · exact .inl (congrArg (g :: ·) h)
      · refine .inr ⟨g :: gs₁, g', gs₂, rfl, ?_, hg', congrArg (g :: ·) h⟩
        exact List.forall_mem_cons.mpr ⟨hg, hgs₁⟩

end Settle

/-- What is typed of a text holds no line break. -/
theorem not_isBreak_of_mem_typed {s : String} : ∀ g ∈ typed s, ¬g.IsBreak := by
  simp [typed, Glyph.IsBreak]

/-! ## From glyphs to characters -/

/-- How glyphs take the characters printed before them to those printed after them. -/
inductive Emits : List Char → List Glyph → List Char → Prop
  | done {out} : Emits out [] out
  | char {out gs end'} (c : Char) (h : Emits (c :: out) gs end') : Emits out (.char c :: gs) end'
  | glue {out gs end'} (h : Emits out gs end') : Emits out (.gap :: gs) end'
  | blank {out gs end'} (h : Emits (' ' :: out) gs end') : Emits out (.gap :: gs) end'
  | stop {pad out gs end'} (width : Nat) (hpad : ∀ c ∈ pad, Text.isPadding c = true)
    (h : Emits (List.replicate width ' ' ++ '\n' :: out) gs end') :
    Emits (pad ++ out) (.stop :: gs) end'
  | feed {out gs end'} (h : Emits ('\n' :: out) gs end') : Emits out (.feed :: gs) end'

section Emits

variable {gs hs : List Glyph} {out end' : List Char}

/-- A place where the line does not break is printed as nothing or as a blank. -/
theorem Emits.gap_cases (h : Emits out (.gap :: gs) end') :
    Emits out gs end' ∨ Emits (' ' :: out) gs end' := by
  cases h with
  | glue h => exact .inl h
  | blank h => exact .inr h

/-- A text is printed as it is. -/
theorem Emits.typed {w : String} (h : Emits (w.toList.reverse ++ out) gs end') :
    Emits out (typed w ++ gs) end' := by
  have hchars : ∀ (cs : List Char) (out : List Char), Emits (cs.reverse ++ out) gs end' →
      Emits out (cs.map .char ++ gs) end' := by
    intro cs
    induction cs with
    | nil =>
      intro out h
      exact h
    | cons c cs ih =>
      intro out h
      rw [List.reverse_cons, List.append_assoc] at h
      exact .char c (ih (c :: out) h)
  exact hchars w.toList out h

/-- Glyphs that are read as characters are printed as these, and nothing else can be. -/
theorem Emits.of_chars {cs : List Char} (hcs : readOff hs = cs.map some)
    (h : Emits out (hs ++ gs) end') : Emits (cs.reverse ++ out) gs end' := by
  induction cs generalizing hs out with
  | nil =>
    obtain rfl : hs = [] := List.map_eq_nil_iff.mp hcs
    exact h
  | cons c cs ih =>
    obtain ⟨g, hs, rfl, hg, hrest⟩ := List.map_eq_cons_iff.mp hcs
    rw [List.reverse_cons, List.append_assoc]
    cases h with
    | char _ h =>
      obtain rfl := Option.some.inj hg
      exact ih hrest h
    | feed h =>
      obtain rfl := Option.some.inj hg
      exact ih hrest h
    | glue _ => cases hg
    | blank _ => cases hg
    | stop _ _ _ => cases hg

/-- A text among the glyphs is printed as it is, and nothing else can be. -/
theorem Emits.of_inked {w : String} (hw : readOff hs = inked w) (h : Emits out (hs ++ gs) end') :
    Emits (w.toList.reverse ++ out) gs end' :=
  h.of_chars hw

/-- Nothing is printed for no glyphs. -/
theorem Emits.eq_of_nil (h : Emits out [] end') : end' = out := by
  cases h
  rfl

/-- The first glyphs are printed before the others. -/
theorem Emits.exists_between (h : Emits out (gs ++ hs) end') :
    ∃ between, Emits out gs between ∧ Emits between hs end' := by
  induction gs generalizing out with
  | nil => exact ⟨out, .done, h⟩
  | cons g gs ih =>
    cases h with
    | char c h =>
      obtain ⟨between, h₁, h₂⟩ := ih h
      exact ⟨between, .char c h₁, h₂⟩
    | glue h =>
      obtain ⟨between, h₁, h₂⟩ := ih h
      exact ⟨between, .glue h₁, h₂⟩
    | blank h =>
      obtain ⟨between, h₁, h₂⟩ := ih h
      exact ⟨between, .blank h₁, h₂⟩
    | stop width hpad h =>
      obtain ⟨between, h₁, h₂⟩ := ih h
      exact ⟨between, .stop width hpad h₁, h₂⟩
    | feed h =>
      obtain ⟨between, h₁, h₂⟩ := ih h
      exact ⟨between, .feed h₁, h₂⟩

/-- The blanks at the end of a line are dropped in front of a line feed. -/
theorem Emits.dropped (width : Nat)
    (h : Emits (List.replicate width ' ' ++ '\n' :: out.dropWhile Text.isPadding) gs end') :
    Emits out (.stop :: gs) end' := by
  have hsplit := List.takeWhile_append_dropWhile (p := Text.isPadding) (l := out)
  rw [← hsplit]
  exact .stop width (fun c hc => List.mem_takeWhile_imp hc) h

/-- A new line is printed for the break that asks for it. -/
theorem Emits.breakLine {options : Options} {s : State} {level : Nat} {style : LineStyle}
    (h : Emits (s.breakLine options level style.literal).printed gs end') :
    Emits s.printed (.ofStyle style :: gs) end' := by
  unfold Glyph.ofStyle
  unfold State.breakLine at h
  cases hl : style.literal with
  | true =>
    rw [hl, if_pos rfl] at h
    cases hh : style.hard with
    | true => exact .feed h
    | false =>
      have hstop : Emits ([] ++ s.printed) (.stop :: gs) end' := .stop 0 (by simp) h
      exact hstop
  | false =>
    rw [hl, if_neg (by simp)] at h
    rw [Bool.and_false]
    exact .dropped _ h

end Emits

/-! ## The moves of a shallow state -/

/-- Scripts of the commands in the place of a command are scripts of the command. -/
theorem Expansion.scripts {c : Command} {cs : List Command} (h : Expansion c cs) {q : List Cue}
    (hq : ScriptsAll (cs.map Command.doc) q) : c.doc.Scripts q := by
  cases h with
  | @concat l m ds =>
    have hdocs : (ds.map (⟨l, m, ·⟩ : Doc → Command)).map Command.doc = ds := by
      simp [Function.comp_def]
    rw [hdocs] at hq
    exact hq
  | choice hd m' =>
    obtain ⟨a, _, ha, rfl, rfl⟩ := hq
    rw [List.append_nil]
    exact scriptsAny_of_mem hd ha
  | fillMore m₁ m₂ =>
    obtain ⟨q₁, q₂, h₁, ⟨q₃, q₄, h₃, ⟨q₅, q₆, h₅, rfl, rfl⟩, rfl⟩, rfl⟩ := hq
    rw [List.append_nil]
    exact ⟨q₁, q₃ ++ q₅, h₁, ⟨q₃, q₅, h₃, h₅, rfl⟩, rfl⟩
  | group marked m' =>
    obtain ⟨a, _, ha, rfl, rfl⟩ := hq
    rw [List.append_nil]
    exact ha
  | indent =>
    obtain ⟨a, _, ha, rfl, rfl⟩ := hq
    rw [List.append_nil]
    exact ha
  | _ => exact hq

/-- The commands in the place of a shallow command are shallow. -/
theorem Expansion.shallow {c : Command} {cs : List Command} (h : Expansion c cs)
    (hc : c.doc.Shallow) : ShallowAll (cs.map Command.doc) := by
  cases h with
  | concat => simpa [Function.comp_def] using hc
  | choice hd m' => exact ⟨shallowAll_iff.mp hc _ hd, trivial⟩
  | fillMore m₁ m₂ => exact ⟨hc.1, hc.2.1, hc.2.2, trivial⟩
  | fillNone => trivial
  | breakParent => trivial
  | _ => simpa using hc

/-- No suffix of a state stands inside another one, nor in what waits. -/
structure State.Shallow (s : State) : Prop where
  stack : ShallowAll (s.stack.map Command.doc)
  suffixes : SoundAll False (s.suffixes.map Command.doc)

/-- Moves lead from shallow states to shallow states. -/
theorem Move.shallow {options : Options} {s s' : State} (hm : Move options s s')
    (hs : s.Shallow) : s'.Shallow := by
  have hall : ∀ {cs : List Command},
      ShallowAll (cs.map Command.doc) ↔ ∀ c ∈ cs, c.doc.Shallow := by
    simp [shallowAll_iff]
  have hnone : ∀ {cs : List Command},
      SoundAll False (cs.map Command.doc) ↔ ∀ c ∈ cs, c.doc.Sound False := by
    simp [soundAll_iff]
  obtain ⟨hstack, hsuffixes⟩ := hm.forall_docs Doc.Shallow (Doc.Sound False)
    (fun hc h => hall.mp (hc.shallow h)) id Sound.shallow (hall.mp hs.stack)
    (hnone.mp hs.suffixes)
  exact ⟨hall.mpr hstack, hnone.mpr hsuffixes⟩

/-- Whether a script is one of those of the commands on a stack: a break that will be taken
is taken in it. -/
def StackScripts : List Command → List Cue → Prop
  | [], q => q = []
  | c :: cs, q => ∃ a b, c.doc.Scripts a ∧ (c.IsCertain → a ≠ [.now .gap]) ∧ StackScripts cs b ∧
      q = a ++ b

/-- Scripts of commands are scripts of their documents. -/
theorem StackScripts.scriptsAll {cs : List Command} {q : List Cue} (h : StackScripts cs q) :
    ScriptsAll (cs.map Command.doc) q := by
  induction cs generalizing q with
  | nil => exact h
  | cons c cs ih =>
    obtain ⟨a, b, ha, -, hb, rfl⟩ := h
    exact ⟨a, b, ha, ih hb, rfl⟩

/-- A script of two stacks is one of the first and one of the second. -/
theorem StackScripts.exists_append {cs ds : List Command} {q : List Cue}
    (h : StackScripts (cs ++ ds) q) :
    ∃ a b, StackScripts cs a ∧ StackScripts ds b ∧ q = a ++ b := by
  induction cs generalizing q with
  | nil => exact ⟨[], q, rfl, h, rfl⟩
  | cons c cs ih =>
    obtain ⟨a, _, ha, hcertain, hrest, rfl⟩ := h
    obtain ⟨b, b', hb, hb', rfl⟩ := ih hrest
    exact ⟨a ++ b, b', ⟨a, b, ha, hcertain, hb, rfl⟩, hb', (List.append_assoc ..).symm⟩

/-- A command that is no certain break has all the scripts of its document. -/
theorem StackScripts.cons {c : Command} {cs : List Command} {a q : List Cue} (h : StackScripts cs q)
    (ha : c.doc.Scripts a) (hc : ¬c.IsCertain) : StackScripts (c :: cs) (a ++ q) :=
  ⟨a, q, ha, fun hcertain => absurd hcertain hc, h, rfl⟩

/-- A certain break on top of a stack is taken. -/
theorem stackScripts_line {l : Nat} {m : Mode} {style : LineStyle} {cs : List Command}
    {q : List Cue} (hb : m = .broken ∨ style.hard = true) :
    StackScripts (⟨l, m, .line style⟩ :: cs) q ↔
      ∃ b, StackScripts cs b ∧ q = .now (.ofStyle style) :: b := by
  constructor
  · rintro ⟨a, b, rfl | ⟨-, rfl⟩, hcertain, hrest, rfl⟩
    · exact ⟨b, hrest, rfl⟩
    · exact absurd rfl (hcertain ⟨style, rfl, hb⟩)
  · rintro ⟨b, hrest, rfl⟩
    refine ⟨[.now (.ofStyle style)], b, .inl rfl, fun _ => ?_, hrest, rfl⟩
    unfold Glyph.ofStyle
    split <;> simp

/-- Whether what is left to do in a state can be printed so that the output is `out`. -/
def State.Prints (s : State) (out : List Char) : Prop :=
  ∃ q w, StackScripts s.stack q ∧ ScriptsAll (s.suffixes.map Command.doc) (prompt w) ∧
    Emits s.printed (settle w q) out

/-- What is printed after a move is printed by going on from the state before it. What waited stands
in front of a break that is taken, and puts nothing off itself. -/
theorem Move.prints {options : Options} {s s' : State} (hm : Move options s s') (hs : s.Shallow)
    {out : List Char} (h : s'.Prints out) : s.Prints out := by
  obtain ⟨q, w, hq, hw, he⟩ := h
  cases hm with
  | @expand c cs rest hstack hc again =>
    obtain ⟨a, b, ha, hb, rfl⟩ := hq.exists_append
    refine ⟨a ++ b, w, ?_, hw, he⟩
    rw [hstack]
    exact hb.cons (hc.scripts ha.scriptsAll) hc.not_isCertain
  | @text l m t rest hstack =>
    have hkept : ¬Command.IsCertain ⟨l, m, .text t⟩ := by simp [Command.IsCertain]
    refine ⟨prompt (typed t) ++ q, w, ?_, hw, ?_⟩
    · rw [hstack]
      exact hq.cons rfl hkept
    · rw [settle_unbroken not_isBreak_of_mem_typed]
      exact he.typed
  | @defer l m d rest hstack =>
    have hkept : ¬Command.IsCertain ⟨l, m, .suffix d⟩ := by simp [Command.IsCertain]
    rw [List.map_append] at hw
    obtain ⟨a, b, ha, ⟨b', _, hb, rfl, rfl⟩, hsplit⟩ := scriptsAll_append.mp hw
    obtain ⟨w', gs, rfl, rfl, hgs⟩ := List.map_eq_append_iff.mp hsplit
    rw [List.append_nil] at hgs
    rw [← hgs] at hb
    refine ⟨.later gs :: q, w', ?_, ha, he⟩
    rw [hstack]
    exact hq.cons (a := [.later gs]) ⟨gs, hb, rfl⟩ hkept
  | @glue l style rest hstack hh hsoft =>
    have hkept : ¬Command.IsCertain ⟨l, .flat, .line style⟩ := by simp [Command.IsCertain, hh]
    refine ⟨.now .gap :: q, w, ?_, hw, .glue he⟩
    rw [hstack]
    exact hq.cons (a := [.now .gap]) (.inr ⟨hh, rfl⟩) hkept
  | @blank l style rest hstack hh hsoft =>
    have hkept : ¬Command.IsCertain ⟨l, .flat, .line style⟩ := by simp [Command.IsCertain, hh]
    refine ⟨.now .gap :: q, w, ?_, hw, .blank he⟩
    rw [hstack]
    exact hq.cons (a := [.now .gap]) (.inr ⟨hh, rfl⟩) hkept
  | @flush l m style rest hstack hb hwaits again =>
    obtain rfl : w = [] := List.map_eq_nil_iff.mp hw
    obtain ⟨a, b, ha, hrest, rfl⟩ := hq.exists_append
    obtain ⟨gs, rfl⟩ := hs.suffixes.exists_prompt ha.scriptsAll
    refine ⟨b, gs, hrest, ha.scriptsAll, ?_⟩
    rw [hstack] at hrest
    obtain ⟨b', -, rfl⟩ := (stackScripts_line hb).mp hrest
    rw [settle_prompt, settle_of_isBreak (Glyph.isBreak_ofStyle style), List.nil_append] at he
    rw [settle_of_isBreak (Glyph.isBreak_ofStyle style)]
    exact he
  | @newline l m style rest hstack hb hwaits again =>
    rw [State.breakLine_stack] at hq
    rw [State.breakLine_suffixes, hwaits] at hw
    obtain rfl : w = [] := List.map_eq_nil_iff.mp hw
    refine ⟨.now (.ofStyle style) :: q, [], ?_, ?_, ?_⟩
    · rw [hstack]
      exact (stackScripts_line hb).mpr ⟨q, hq, rfl⟩
    · rw [hwaits]
      rfl
    · rw [settle_of_isBreak (Glyph.isBreak_ofStyle style)]
      exact he.breakLine
  | last hstack hwaits =>
    obtain rfl : w = [] := List.map_eq_nil_iff.mp hw
    obtain ⟨gs, rfl⟩ := hs.suffixes.exists_prompt hq.scriptsAll
    have hsettled : settle [] (prompt gs) = gs := by
      rw [← List.append_nil (prompt gs), settle_prompt, settle, List.append_nil]
    refine ⟨[], gs, ?_, hq.scriptsAll, ?_⟩
    · rw [hstack]
      rfl
    · rw [hsettled] at he
      exact he

/-- A run prints what was left to do in the state it began in. -/
theorem exists_prints {options : Options} {s s' : State}
    (hmoves : Relation.ReflTransGen (Move options) s s') (hs : s.Shallow) (hstack : s'.stack = [])
    (hsuffixes : s'.suffixes = []) : s.Prints s'.printed := by
  induction hmoves using Relation.ReflTransGen.head_induction_on with
  | refl =>
    refine ⟨[], [], ?_, ?_, .done⟩
    · rw [hstack]
      rfl
    · rw [hsuffixes]
      rfl
  | head hm _ ih => exact hm.prints hs (ih (hm.shallow hs))

/-- A sound and shallow document is rendered, and the output is one of its scripts, with
what is put off in its place. -/
theorem exists_settled (options : Options) {p : Prop} {d : Doc} (hd : d.Sound p)
    (hshallow : d.Shallow) :
    ∃ out q, render? options d = some out ∧ d.Scripts q ∧
      Emits [] (settle [] q) out.toList.reverse := by
  obtain ⟨s, hrender, hmoves, hstack, hsuffixes⟩ := exists_moves options hd
  have hinitial : (State.initial d.markBreaks).Shallow :=
    ⟨⟨shallow_markBreaks hshallow, trivial⟩, trivial⟩
  obtain ⟨_, w, ⟨q, _, hq, -, rfl, rfl⟩, hw, he⟩ :=
    exists_prints hmoves hinitial hstack hsuffixes
  obtain rfl : w = [] := List.map_eq_nil_iff.mp hw
  rw [List.append_nil] at he
  refine ⟨String.ofList s.printed.reverse, q, hrender, (scripts_markBreaks d).mp hq, ?_⟩
  rw [String.toList_ofList, List.reverse_reverse]
  exact he

/-- A sound document without suffixes is rendered, and the output is one of its scripts. -/
theorem exists_render (options : Options) {d : Doc} (hd : d.Sound False) :
    ∃ out gs, render? options d = some out ∧ d.Scripts (prompt gs) ∧
      Emits [] gs out.toList.reverse := by
  obtain ⟨out, q, hrender, hq, he⟩ := exists_settled options hd hd.shallow
  obtain ⟨gs, rfl⟩ := hd.exists_prompt hq
  rw [← List.append_nil (prompt gs), settle_prompt, settle, List.append_nil] at he
  exact ⟨out, gs, hrender, hq, he⟩

end JavaFormat.Doc
