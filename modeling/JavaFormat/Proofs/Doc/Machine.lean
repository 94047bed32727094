import JavaFormat.Doc.Render
import JavaFormat.Proofs.Doc.Reading
import Mathlib.Logic.Relation

/-!
# The moves of the renderer

A step of the renderer is one of a few moves: it puts simpler commands in the place
of the one on top, prints a text, puts a suffix aside, leaves a break out, takes a
break, or puts the suffixes that wait back on the stack. `move_of_step` says so
once; what a run keeps is read off the moves. Every move lowers the weight, so a
run of a sound document ends with nothing left to do (`exists_run`).
-/

namespace JavaFormat.Doc

/-- The commands that a command is replaced by without anything being printed. -/
inductive Expansion : Command → List Command → Prop
  | concat {l m ds} : Expansion ⟨l, m, .concat ds⟩ (ds.map (⟨l, m, ·⟩))
  | indent {l m d} : Expansion ⟨l, m, .indent d⟩ [⟨l + 1, m, d⟩]
  | group {l m d} (marked : Bool) (m' : Mode) : Expansion ⟨l, m, .group marked d⟩ [⟨l, m', d⟩]
  | choice {l m d states} (hd : d ∈ states) (m' : Mode) :
    Expansion ⟨l, m, .choice states⟩ [⟨l, m', d⟩]
  | fillNone {l m} : Expansion ⟨l, m, .fill []⟩ []
  | fillOne {l m a} (m' : Mode) : Expansion ⟨l, m, .fill [a]⟩ [⟨l, m', a⟩]
  | fillTwo {l m a b} (m' : Mode) : Expansion ⟨l, m, .fill [a, b]⟩ [⟨l, m', a⟩, ⟨l, m', b⟩]
  | fillMore {l m a b c ds} (m₁ m₂ : Mode) :
    Expansion ⟨l, m, .fill (a :: b :: c :: ds)⟩ [⟨l, m₁, a⟩, ⟨l, m₂, b⟩, ⟨l, m, .fill (c :: ds)⟩]
  | breakParent {l m} : Expansion ⟨l, m, .breakParent⟩ []

/-- Whether a command is a break that will be taken, however wide the line is. -/
def Command.IsCertain (c : Command) : Prop :=
  ∃ style, c.doc = .line style ∧ (c.mode = .broken ∨ style.hard = true)

/-- A command that is replaced by others is no break. -/
theorem Expansion.not_isCertain {c : Command} {cs : List Command} (h : Expansion c cs) :
    ¬c.IsCertain := by
  rintro ⟨style, hline, -⟩
  cases h <;> cases hline

/-- A break in a broken command, or a hard one, is taken. -/
theorem isTaken_of_or {m : Mode} {style : LineStyle} (hb : m = .broken ∨ style.hard = true) :
    (decide (m = .flat) && !style.hard) = false := by
  rcases hb with rfl | hb
  · rfl
  · rw [hb, Bool.not_true, Bool.and_false]

/-- What a step of the renderer can do. -/
inductive Move (options : Options) (s : State) : State → Prop
  | expand {c cs rest} (hs : s.stack = c :: rest) (hc : Expansion c cs) (again : Bool) :
    Move options s { s with stack := cs ++ rest, remeasure := again }
  | text {l m w rest} (hs : s.stack = ⟨l, m, .text w⟩ :: rest) :
    Move options s (State.print { s with stack := rest } w)
  | defer {l m d rest} (hs : s.stack = ⟨l, m, .suffix d⟩ :: rest) :
    Move options s { s with stack := rest, suffixes := s.suffixes ++ [⟨l, m, d⟩] }
  | glue {l style rest} (hs : s.stack = ⟨l, .flat, .line style⟩ :: rest)
    (hh : style.hard = false) (hsoft : style.soft = true) : Move options s { s with stack := rest }
  | blank {l style rest} (hs : s.stack = ⟨l, .flat, .line style⟩ :: rest)
    (hh : style.hard = false) (hsoft : style.soft = false) :
    Move options s (State.print { s with stack := rest } " ")
  | flush {l m style rest} (hs : s.stack = ⟨l, m, .line style⟩ :: rest)
    (hb : m = .broken ∨ style.hard = true) (hw : s.suffixes ≠ []) (again : Bool) :
    Move options s
      { s with stack := s.suffixes ++ s.stack, suffixes := [], remeasure := again }
  | newline {l m style rest} (hs : s.stack = ⟨l, m, .line style⟩ :: rest)
    (hb : m = .broken ∨ style.hard = true) (hw : s.suffixes = []) (again : Bool) :
    Move options s
      (State.breakLine options { s with stack := rest, remeasure := again } l style.literal)
  | last (hs : s.stack = []) (hw : s.suffixes ≠ []) :
    Move options s { s with stack := s.suffixes, suffixes := [] }

/-- The state of a choice that is printed is one of its states. -/
theorem mem_of_chooseState {room : Int} {level : Nat} {rest : List Command} {states : List Doc}
    {c : Command} (h : chooseState room level rest states = some c) :
    ∃ d ∈ states, ∃ m, c = ⟨level, m, d⟩ := by
  fun_induction chooseState room level rest states with
  | case1 => cases h
  | case2 last =>
    cases h
    exact ⟨last, by simp, _, rfl⟩
  | case3 d ds _ _ =>
    cases h
    exact ⟨d, by simp, _, rfl⟩
  | case4 d ds _ _ ih =>
    obtain ⟨e, he, m, rfl⟩ := ih h
    exact ⟨e, List.mem_cons_of_mem _ he, m, rfl⟩
  | case5 => cases h

/-- A fill is replaced by its parts, the rest of it still being a fill. -/
theorem expansion_of_fillCommands {room : Int} {level : Nat} {mode : Mode} {parts : List Doc}
    {cs : List Command} (h : fillCommands room level mode parts = some cs) :
    Expansion ⟨level, mode, .fill parts⟩ cs := by
  match parts with
  | [] =>
    cases h
    exact .fillNone
  | [a] =>
    simp only [fillCommands, Option.bind_eq_bind, Option.bind_eq_some_iff] at h
    obtain ⟨fits, -, h⟩ := h
    cases h
    exact .fillOne _
  | [a, b] =>
    simp only [fillCommands, Option.bind_eq_bind, Option.bind_eq_some_iff] at h
    obtain ⟨fits, -, h⟩ := h
    cases h
    exact .fillTwo _
  | a :: b :: c :: ds =>
    simp only [fillCommands, Option.bind_eq_bind, Option.bind_eq_some_iff] at h
    obtain ⟨fits, -, pair, -, h⟩ := h
    split at h <;> cases h <;> exact .fillMore _ _

/-- Taking a break is leaving it out, printing a space, putting suffixes in front of it or beginning
a new line. In flat mode a break that is taken sets the flag, and the mode decides nothing else
about it. -/
theorem move_of_takeBreak {options : Options} {s : State} {rest : List Command} {l : Nat}
    {m : Mode} {style : LineStyle} (hs : s.stack = ⟨l, m, .line style⟩ :: rest) :
    Move options s (State.takeBreak options { s with stack := rest } l m style) := by
  by_cases hflat : m = .flat ∧ style.hard = false
  · obtain ⟨rfl, hh⟩ := hflat
    cases hsoft : style.soft with
    | true => simpa [State.takeBreak, hh, hsoft] using Move.glue hs hh hsoft
    | false => simpa [State.takeBreak, hh, hsoft] using Move.blank hs hh hsoft
  · have hb : m = .broken ∨ style.hard = true := by
      cases m with
      | broken => exact .inl rfl
      | flat => simpa using hflat
    have hpast : ¬(decide (m = .flat) && !style.hard) = true := by simpa using hflat
    rw [State.takeBreak, if_neg hpast]
    by_cases hw : s.suffixes = []
    · cases m with
      | broken => simpa [hw] using Move.newline hs hb hw s.remeasure
      | flat => simpa [hw] using Move.newline hs hb hw true
    · cases m with
      | broken => simpa [hw, hs] using Move.flush hs hb hw s.remeasure
      | flat => simpa [hw, hs] using Move.flush hs hb hw true

/-- A step of the renderer is a move. -/
theorem move_of_step {options : Options} {s s' : State} (h : s.step options = .next s') :
    Move options s s' := by
  obtain ⟨stack, suffixes, printed, column, remeasure⟩ := s
  cases stack with
  | nil =>
    cases suffixes with
    | nil => cases h
    | cons c cs =>
      cases h
      exact .last rfl (by simp)
  | cons c rest =>
    obtain ⟨l, m, d⟩ := c
    simp only [State.step, State.execute] at h
    cases d with
    | text w =>
      cases h
      exact .text rfl
    | concat ds =>
      cases h
      exact .expand rfl .concat _
    | group marked d =>
      dsimp only at h
      split at h
      · cases h
        exact .expand rfl (.group ..) _
      · split at h
        · cases h
          exact .expand rfl (.group ..) _
        · split at h
          · cases h
            exact .expand rfl (.group ..) _
          · cases h
    | choice states =>
      dsimp only at h
      split at h
      · split at h
        · cases h
        · cases h
          exact .expand rfl (.choice (by simp) _) _
      · split at h
        · rename_i hc
          cases h
          obtain ⟨d, hd, m', rfl⟩ := mem_of_chooseState hc
          exact .expand rfl (.choice hd m') _
        · cases h
    | indent d =>
      cases h
      exact .expand rfl .indent _
    | fill ds =>
      dsimp only at h
      split at h
      · rename_i hf
        cases h
        exact .expand rfl (expansion_of_fillCommands hf) _
      · cases h
    | line style =>
      cases h
      exact move_of_takeBreak rfl
    | suffix d =>
      cases h
      exact .defer rfl
    | breakParent =>
      cases h
      exact .expand rfl .breakParent _

/-! ## New lines -/

section BreakLine

variable (options : Options) (s : State) (level : Nat) (literal : Bool)

/-- Breaking the line leaves the stack as it is. -/
@[simp] theorem State.breakLine_stack : (s.breakLine options level literal).stack = s.stack := by
  unfold State.breakLine
  split <;> rfl

/-- Breaking the line leaves the suffixes as they are. -/
@[simp] theorem State.breakLine_suffixes :
    (s.breakLine options level literal).suffixes = s.suffixes := by
  unfold State.breakLine
  split <;> rfl

/-- Of the characters in which neither indentation nor blanks at the end of a line count, a
new line adds its line feed and takes away none. -/
theorem filter_printed_breakLine {p : Char → Bool}
    (hp : ∀ c, Text.isPadding c = true → p c = false) :
    (s.breakLine options level literal).printed.filter p =
      ['\n'].filter p ++ s.printed.filter p := by
  have hspace : p ' ' = false := hp ' ' (by decide)
  have hdropped : ∀ cs : List Char, (cs.dropWhile Text.isPadding).filter p = cs.filter p := by
    intro cs
    induction cs with
    | nil => rfl
    | cons c cs ih =>
      cases hc : Text.isPadding c with
      | true => simp [hc, hp c hc, ih]
      | false => simp [hc]
  unfold State.breakLine
  split
  · exact List.filter_append (p := p) ['\n'] s.printed
  · rw [List.filter_append, List.filter_replicate_of_neg (by simp [hspace]), List.nil_append]
    rw [← hdropped s.printed]
    exact List.filter_append (p := p) ['\n'] _

end BreakLine

/-- What holds of the documents that are still to be printed goes on to hold of them if it
goes down to the parts of a document, and so does what holds of those that wait. -/
theorem Move.forall_docs (P Q : Doc → Prop)
    (hparts : ∀ {c cs}, Expansion c cs → P c.doc → ∀ c' ∈ cs, P c'.doc)
    (hdefer : ∀ {d}, P (.suffix d) → Q d) (hlast : ∀ {d}, Q d → P d) {options : Options}
    {s s' : State} (h : Move options s s') (hstack : ∀ c ∈ s.stack, P c.doc)
    (hsuffixes : ∀ c ∈ s.suffixes, Q c.doc) :
    (∀ c ∈ s'.stack, P c.doc) ∧ ∀ c ∈ s'.suffixes, Q c.doc := by
  have hwaiting : ∀ c ∈ s.suffixes, P c.doc := fun c hc => hlast (hsuffixes c hc)
  cases h with
  | expand hs hc again =>
    obtain ⟨htop, hrest⟩ := List.forall_mem_cons.mp (hs ▸ hstack)
    exact ⟨List.forall_mem_append.mpr ⟨hparts hc htop, hrest⟩, hsuffixes⟩
  | defer hs =>
    obtain ⟨htop, hrest⟩ := List.forall_mem_cons.mp (hs ▸ hstack)
    exact ⟨hrest, List.forall_mem_append.mpr
      ⟨hsuffixes, List.forall_mem_singleton.mpr (hdefer htop)⟩⟩
  | text hs | glue hs hh hsoft | blank hs hh hsoft =>
    exact ⟨(List.forall_mem_cons.mp (hs ▸ hstack)).2, hsuffixes⟩
  | flush hs hb hw again =>
    exact ⟨List.forall_mem_append.mpr ⟨hwaiting, hstack⟩, List.forall_mem_nil _⟩
  | newline hs hb hw again =>
    rw [State.breakLine_stack, State.breakLine_suffixes]
    exact ⟨(List.forall_mem_cons.mp (hs ▸ hstack)).2, hsuffixes⟩
  | last hs hw => exact ⟨hwaiting, List.forall_mem_nil _⟩

/-! ## Every move lowers the weight -/

/-- The weights of two lists add up. -/
theorem weightAll_append (ds es : List Doc) :
    weightAll (ds ++ es) = weightAll ds + weightAll es := by
  induction ds with
  | nil => simp [weightAll]
  | cons d ds ih =>
    simp only [List.cons_append, weightAll, ih]
    omega

/-- A document weighs no more than a list that it is in. -/
theorem weight_le_weightAll {d : Doc} {ds : List Doc} (h : d ∈ ds) : d.weight ≤ weightAll ds := by
  induction ds with
  | nil => cases h
  | cons e es ih =>
    rcases List.mem_cons.mp h with rfl | h
    · simp only [weightAll]
      omega
    · have := ih h
      simp only [weightAll]
      omega

/-- The commands in the place of a command weigh less. -/
theorem Expansion.weight_lt {c : Command} {cs : List Command} (h : Expansion c cs) :
    weightAll (cs.map Command.doc) < c.doc.weight := by
  cases h with
  | @concat l m ds =>
    have hm : (ds.map (⟨l, m, ·⟩ : Doc → Command)).map Command.doc = ds := by
      simp [Function.comp_def]
    rw [hm]
    simp only [weight]
    omega
  | choice hd m' =>
    have := weight_le_weightAll hd
    simp only [List.map_cons, List.map_nil, weightAll, weight]
    omega
  | _ =>
    simp only [List.map_cons, List.map_nil, weightAll, weight, List.length_cons, List.length_nil]
    omega

/-- Every move lowers the weight. -/
theorem Move.weight_lt {options : Options} {s s' : State} (h : Move options s s') :
    s'.weight < s.weight := by
  cases h with
  | expand hs hc again =>
    have := hc.weight_lt
    simp only [State.weight, hs, List.map_append, List.map_cons, weightAll_append, weightAll]
    omega
  | text hs =>
    simp only [State.weight, State.print, hs, List.map_cons, weightAll, weight]
    omega
  | defer hs =>
    simp only [State.weight, hs, List.map_append, List.map_cons, List.map_nil, weightAll_append,
      weightAll, weight, List.length_append, List.length_cons, List.length_nil]
    omega
  | glue hs hh hsoft =>
    simp only [State.weight, hs, List.map_cons, weightAll, weight]
    omega
  | blank hs hh hsoft =>
    simp only [State.weight, State.print, hs, List.map_cons, weightAll, weight]
    omega
  | flush hs hb hw again =>
    have := List.length_pos_iff.mpr hw
    simp only [State.weight, List.map_append, List.map_nil, weightAll_append, weightAll,
      List.length_nil]
    omega
  | newline hs hb hw again =>
    simp only [State.weight, State.breakLine, hs]
    split <;> simp only [List.map_cons, weightAll, weight] <;> omega
  | last hs hw =>
    have := List.length_pos_iff.mpr hw
    simp only [State.weight, hs, List.map_nil, weightAll, List.length_nil]
    omega

/-! ## Measuring several documents -/

/-- Go on measuring with the room that is left. -/
def Fit.andThen (found : Fit) (next : Nat → Fit) : Fit :=
  match found with
  | .room left => next left
  | found => found

section Measure

variable {strict : Bool} {mode : Mode} {width : Nat}

/-- The first of several documents fits, and then the others in what room is left. -/
theorem fitAll_cons {d : Doc} {ds : List Doc} : fitAll strict mode width (d :: ds) =
    (fit strict mode width d).andThen (fitAll strict mode · ds) := by
  rw [fitAll]
  cases fit strict mode width d <;> rfl

/-- A list of one document fits as that document does. -/
theorem fitAll_single {d : Doc} : fitAll strict mode width [d] = fit strict mode width d := by
  rw [fitAll_cons]
  cases fit strict mode width d <;> rfl

/-- The first of several commands fits, and then the others in what room is left. -/
theorem fitCommands_cons {c : Command} {rest : List Command} :
    fitCommands strict width (c :: rest) =
      (fit strict c.mode width c.doc).andThen (fitCommands strict · rest) := by
  rw [fitCommands]
  cases fit strict c.mode width c.doc <;> rfl

/-- Two lists fit one after the other. -/
theorem fitAll_append (ds es : List Doc) : fitAll strict mode width (ds ++ es) =
    (fitAll strict mode width ds).andThen (fitAll strict mode · es) := by
  induction ds generalizing width with
  | nil => rfl
  | cons d ds ih =>
    rw [List.cons_append, fitAll_cons, fitAll_cons]
    cases fit strict mode width d with
    | room left => exact ih
    | _ => rfl

/-- Documents put on the stack together are measured as they are measured by themselves. -/
theorem fitCommands_append (level : Nat) (ds : List Doc) {rest : List Command} :
    fitCommands strict width (ds.map (⟨level, mode, ·⟩) ++ rest) =
      (fitAll strict mode width ds).andThen (fitCommands strict · rest) := by
  induction ds generalizing width with
  | nil => rfl
  | cons d ds ih =>
    rw [List.map_cons, List.cons_append, fitCommands_cons, fitAll_cons]
    cases fit strict mode width d with
    | room left => exact ih
    | _ => rfl

end Measure

/-- Whether commands fit depends only on how each of them is measured. -/
theorem fits_congr {strict : Bool} {room : Int} {c c' : Command} {rest rest' : List Command}
    (hc : ∀ width, fit strict c.mode width c.doc = fit strict c'.mode width c'.doc)
    (hrest : ∀ width, fitCommands strict width rest = fitCommands strict width rest') :
    fits? strict room (c :: rest) = fits? strict room (c' :: rest') := by
  have hcommands : fitCommands strict room.toNat (c :: rest) =
      fitCommands strict room.toNat (c' :: rest') := by
    rw [fitCommands_cons, fitCommands_cons, hc]
    exact congrArg (Fit.andThen _) (funext hrest)
  rw [fits?, fits?, hcommands]

/-! ## A sound document is rendered -/

mutual

/-- Measuring a sound document meets no choice without a state. -/
theorem fit_ne_stateless {p : Prop} {strict : Bool} :
    ∀ {d : Doc} {mode : Mode} {width : Nat}, d.Sound p → fit strict mode width d ≠ .stateless
  | .text s, mode, width, _ => by
    rw [fit]
    split <;> simp
  | .concat _, _, _, h => by
    rw [fit]
    exact fitAll_ne_stateless h
  | .group marked contents, mode, width, h => by
    rw [fit]
    split
    · simp
    · exact fit_ne_stateless (d := contents) h
  | .choice states, .broken, width, h => by
    rw [fit]
    exact fitLast_ne_stateless h.1 h.2
  | .choice states, .flat, width, h => by
    rw [fit]
    exact fitFirst_ne_stateless h.1 h.2
  | .indent contents, _, _, h => by
    rw [fit]
    exact fit_ne_stateless (d := contents) h
  | .fill _, _, _, h => by
    rw [fit]
    exact fitAll_ne_stateless h
  | .line style, mode, width, _ => by
    rw [fit]
    split
    · simp
    · split
      · simp
      · split <;> simp
  | .suffix _, _, _, _ => by simp [fit]
  | .breakParent, _, _, _ => by simp [fit]

/-- No choice without a state is met in a sound list. -/
theorem fitAll_ne_stateless {p : Prop} {strict : Bool} :
    ∀ {ds : List Doc} {mode : Mode} {width : Nat}, SoundAll p ds →
      fitAll strict mode width ds ≠ .stateless
  | [], _, _, _ => by simp [fitAll]
  | d :: ds, mode, width, h => by
    rw [fitAll]
    split
    · exact fitAll_ne_stateless h.2
    · exact fit_ne_stateless h.1

/-- No choice without a state is met in the first of some sound documents. -/
theorem fitFirst_ne_stateless {p : Prop} {strict : Bool} :
    ∀ {ds : List Doc} {mode : Mode} {width : Nat}, ds ≠ [] → SoundAll p ds →
      fitFirst strict mode width ds ≠ .stateless
  | [], _, _, hne, _ => absurd rfl hne
  | d :: _, _, _, _, h => by
    rw [fitFirst]
    exact fit_ne_stateless h.1

/-- No choice without a state is met in the last of some sound documents. -/
theorem fitLast_ne_stateless {p : Prop} {strict : Bool} :
    ∀ {ds : List Doc} {mode : Mode} {width : Nat}, ds ≠ [] → SoundAll p ds →
      fitLast strict mode width ds ≠ .stateless
  | [], _, _, hne, _ => absurd rfl hne
  | [d], _, _, _, h => by
    rw [fitLast]
    exact fit_ne_stateless h.1
  | _ :: e :: es, _, _, _, h => by
    rw [fitLast]
    · exact fitLast_ne_stateless (List.cons_ne_nil e es) h.2
    · simp

end

/-- Measuring sound commands gives an answer. -/
theorem exists_fits {p : Prop} (strict : Bool) (width : Int) (cs : List Command)
    (h : SoundAll p (cs.map Command.doc)) : ∃ b, fits? strict width cs = some b := by
  have hfit (w : Nat) : fitCommands strict w cs ≠ .stateless := by
    induction cs generalizing w with
    | nil => simp [fitCommands]
    | cons c cs ih =>
      rw [fitCommands]
      split
      · exact ih h.2 _
      · exact fit_ne_stateless h.1
  unfold fits?
  split
  · exact ⟨_, rfl⟩
  · split
    · exact ⟨_, rfl⟩
    · exact ⟨_, rfl⟩
    · exact ⟨_, rfl⟩
    · rename_i hs
      exact absurd hs (hfit _)

/-- A choice with states is decided. -/
theorem exists_chooseState {p : Prop} (room : Int) (level : Nat) {rest : List Command}
    (hrest : SoundAll p (rest.map Command.doc)) {states : List Doc} (hne : states ≠ [])
    (h : SoundAll p states) : ∃ c, chooseState room level rest states = some c := by
  induction states with
  | nil => exact absurd rfl hne
  | cons d ds ih =>
    cases ds with
    | nil => exact ⟨_, rfl⟩
    | cons e es =>
      obtain ⟨b, hb⟩ := exists_fits false room (⟨level, .flat, d⟩ :: rest) ⟨h.1, hrest⟩
      rw [chooseState, hb]
      · cases b with
        | true => exact ⟨_, rfl⟩
        | false => exact ih (by simp) h.2
      · simp

/-- A fill of sound parts is replaced by its parts. -/
theorem exists_fillCommands {p : Prop} (room : Int) (level : Nat) (mode : Mode) {parts : List Doc}
    (h : SoundAll p parts) : ∃ cs, fillCommands room level mode parts = some cs := by
  match parts, h with
  | [], _ => exact ⟨_, rfl⟩
  | [a], h =>
    obtain ⟨b, hb⟩ := exists_fits true room [⟨level, .flat, a⟩] h
    simp [fillCommands, hb]
  | [a, _], h =>
    obtain ⟨b, hb⟩ := exists_fits true room [⟨level, .flat, a⟩] ⟨h.1, trivial⟩
    simp [fillCommands, hb]
  | a :: s :: c :: _, h =>
    obtain ⟨b, hb⟩ := exists_fits true room [⟨level, .flat, a⟩] ⟨h.1, trivial⟩
    obtain ⟨b', hb'⟩ := exists_fits true room [⟨level, .flat, .concat [a, s, c]⟩]
      ⟨⟨h.1, h.2.1, h.2.2.1, trivial⟩, trivial⟩
    simp only [fillCommands, hb, hb', Option.bind_eq_bind, Option.bind_some]
    split <;> exact ⟨_, rfl⟩

/-- Every command and every suffix of a state is sound. -/
def State.Sound (p : Prop) (s : State) : Prop :=
  SoundAll p (s.stack.map Command.doc) ∧ SoundAll p (s.suffixes.map Command.doc)

/-- In a sound state a step is taken unless nothing is left to do. -/
theorem State.Sound.step {p : Prop} (options : Options) {s : State} (h : s.Sound p) :
    (s.stack = [] ∧ s.suffixes = []) ∨ ∃ s', s.step options = .next s' := by
  obtain ⟨stack, suffixes, printed, column, remeasure⟩ := s
  cases stack with
  | nil =>
    cases suffixes with
    | nil => exact Or.inl ⟨rfl, rfl⟩
    | cons c cs => exact Or.inr ⟨_, rfl⟩
  | cons c rest =>
    right
    obtain ⟨l, m, d⟩ := c
    obtain ⟨⟨hd, hrest⟩, -⟩ := h
    simp only [State.step, State.execute]
    cases d with
    | group marked d =>
      obtain ⟨b, hb⟩ := exists_fits false
        (State.room options ⟨rest, suffixes, printed, column, false⟩) (⟨l, .flat, d⟩ :: rest)
        ⟨hd, hrest⟩
      dsimp only
      split
      · exact ⟨_, rfl⟩
      · split
        · exact ⟨_, rfl⟩
        · rw [hb]
          exact ⟨_, rfl⟩
    | choice states =>
      obtain ⟨c, hc⟩ := exists_chooseState
        (State.room options ⟨rest, suffixes, printed, column, false⟩) l hrest hd.1 hd.2
      dsimp only
      split
      · split
        · exact absurd rfl hd.1
        · exact ⟨_, rfl⟩
      · rw [hc]
        exact ⟨_, rfl⟩
    | fill ds =>
      obtain ⟨cs, hcs⟩ := exists_fillCommands
        (State.room options ⟨rest, suffixes, printed, column, remeasure⟩) l m hd
      dsimp only
      rw [hcs]
      exact ⟨_, rfl⟩
    | _ => exact ⟨_, rfl⟩

/-- The commands in the place of a sound command are sound. -/
theorem Expansion.sound {p : Prop} {c : Command} {cs : List Command} (h : Expansion c cs)
    (hc : c.doc.Sound p) : SoundAll p (cs.map Command.doc) := by
  cases h with
  | concat => simpa [Function.comp_def] using hc
  | choice hd m' => exact ⟨soundAll_iff.mp hc.2 _ hd, trivial⟩
  | fillMore m₁ m₂ => exact ⟨hc.1, hc.2.1, hc.2.2, trivial⟩
  | fillNone => trivial
  | breakParent => trivial
  | _ => simpa using hc

/-- Moves lead from sound states to sound states. -/
theorem Move.sound {p : Prop} {options : Options} {s s' : State} (h : Move options s s')
    (hs : s.Sound p) : s'.Sound p := by
  have hall : ∀ {cs : List Command},
      SoundAll p (cs.map Command.doc) ↔ ∀ c ∈ cs, c.doc.Sound p := by
    simp [soundAll_iff]
  obtain ⟨hstack, hsuffixes⟩ := h.forall_docs (Doc.Sound p) (Doc.Sound p)
    (fun hc h => hall.mp (hc.sound h)) (fun h => h.2) id (hall.mp hs.1) (hall.mp hs.2)
  exact ⟨hall.mpr hstack, hall.mpr hsuffixes⟩

/-- From a sound state the renderer moves on until nothing is left to do, within
as many steps as the state weighs. -/
theorem exists_run {p : Prop} (options : Options) {fuel : Nat} {s : State} (hs : s.Sound p)
    (hfuel : s.weight ≤ fuel) :
    ∃ s', s.run options fuel = some s' ∧ Relation.ReflTransGen (Move options) s s' ∧
      s'.stack = [] ∧ s'.suffixes = [] := by
  induction fuel generalizing s with
  | zero =>
    refine ⟨s, rfl, .refl, ?_⟩
    rcases hs.step options with hdone | ⟨s', hnext⟩
    · exact hdone
    · have := (move_of_step hnext).weight_lt
      omega
  | succ fuel ih =>
    rcases hs.step options with ⟨hstack, hsuffixes⟩ | ⟨s', hnext⟩
    · refine ⟨s, ?_, .refl, hstack, hsuffixes⟩
      simp [State.run, State.step, hstack, hsuffixes]
    · have hmove := move_of_step hnext
      have hlt := hmove.weight_lt
      obtain ⟨s'', hrun, hmoves, hdone⟩ := ih (hmove.sound hs) (by omega)
      refine ⟨s'', ?_, hmoves.head hmove, hdone⟩
      rw [State.run, hnext]
      exact hrun

/-- A sound document is rendered: the output is what has been printed when nothing is
left to do. -/
theorem exists_moves {p : Prop} (options : Options) {d : Doc} (hd : d.Sound p) :
    ∃ s, render? options d = some (String.ofList s.printed.reverse) ∧
      Relation.ReflTransGen (Move options) (State.initial d.markBreaks) s ∧
      s.stack = [] ∧ s.suffixes = [] := by
  have hsound : (State.initial d.markBreaks).Sound p :=
    ⟨⟨sound_markBreaks hd, trivial⟩, trivial⟩
  obtain ⟨s, hrun, hmoves, hdone⟩ := exists_run options hsound (Nat.le_refl _)
  refine ⟨s, ?_, hmoves, hdone⟩
  unfold render?
  dsimp only
  rw [hrun]
  rfl

end JavaFormat.Doc
