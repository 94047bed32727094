import JavaFormat.Proofs.Doc.Lookahead

/-!
# The first line

What a look-ahead measures can be said without it. Documents are read in their modes, one
behind the other, and the first line is what is met before the first break that is taken.
The look-ahead keeps count of the room instead and stops as soon as it is used up, but its
answer is whether the first line is no longer than the room there was
(`Lookahead.answers_firstLine`).
-/

namespace JavaFormat.Doc

/-- What is met when documents are read in given modes. -/
inductive LineItem where
  /-- A text, or the space that a line break is when it is not taken. -/
  | text (s : String)
  /-- The beginning of a group that is marked broken. -/
  | marked
  /-- A line break that is taken. -/
  | feed
deriving DecidableEq, Repr

mutual

/-- What a document is read as: a marked group with its breaks taken and any other in the
mode around it, a choice as its last state if breaks are taken and as its first if they are
not, and a suffix as nothing. -/
def lineItems (mode : Mode) : Doc → List LineItem
  | .text s => [.text s]
  | .concat parts => (lineItemsEach mode parts).flatten
  | .group marked contents =>
    if marked then .marked :: lineItems .broken contents else lineItems mode contents
  | .choice states =>
    match mode with
    | .broken => (lineItemsEach .broken states).getLastD []
    | .flat => (lineItemsEach .flat states).headD []
  | .indent contents => lineItems mode contents
  | .fill parts => (lineItemsEach mode parts).flatten
  | .line style =>
    if mode = .broken || style.hard then [.feed] else if style.soft then [] else [.text " "]
  | .suffix _ => []
  | .breakParent => []

/-- What each of several documents is read as. -/
def lineItemsEach (mode : Mode) : List Doc → List (List LineItem)
  | [] => []
  | d :: ds => lineItems mode d :: lineItemsEach mode ds

end

/-- What is met before the first break that is taken. -/
def beforeFeed (items : List LineItem) : List LineItem := items.takeWhile (· ≠ .feed)

/-- The first line of commands that are read one behind the other, each in its own mode. -/
def firstLine (cs : List Command) : List LineItem :=
  beforeFeed (cs.flatMap fun c => lineItems c.mode c.doc)

/-- How long a line is: as long as the texts on it. -/
def lineLength : List LineItem → Nat
  | [] => 0
  | .text s :: items => s.length + lineLength items
  | .marked :: items => lineLength items
  | .feed :: items => lineLength items

/-! ## Measuring what is read -/

/-- Measure one item after the other. -/
def Fit.ofItems (strict : Bool) (width : Nat) : List LineItem → Fit
  | [] => .room width
  | .text s :: items =>
    if s.length ≤ width then ofItems strict (width - s.length) items else .over
  | .marked :: items => if strict then .over else ofItems strict width items
  | .feed :: _ => .ended

section Measure

variable {strict : Bool} {mode : Mode} {width : Nat}

/-- Items fit one after the other. -/
theorem Fit.ofItems_append (items more : List LineItem) : ofItems strict width (items ++ more) =
    (ofItems strict width items).andThen (ofItems strict · more) := by
  induction items generalizing width with
  | nil => rfl
  | cons item items ih =>
    cases item with
    | text s =>
      rw [List.cons_append, ofItems, ofItems]
      split
      · exact ih
      · rfl
    | marked =>
      rw [List.cons_append, ofItems, ofItems]
      split
      · rfl
      · exact ih
    | feed => rfl

/-- The items of several documents are listed document by document. -/
theorem lineItemsEach_eq_map (ds : List Doc) : lineItemsEach mode ds = ds.map (lineItems mode) := by
  induction ds with
  | nil => rfl
  | cons d ds ih => rw [lineItemsEach, List.map_cons, ih]

/-- A choice is read as the state that it is measured as. -/
theorem lineItems_choice {states : List Doc} {d : Doc} (h : mode.measured? states = some d) :
    lineItems mode (.choice states) = lineItems mode d := by
  cases mode with
  | broken =>
    rw [lineItems, lineItemsEach_eq_map, List.getLastD_eq_getLast?, List.getLast?_map]
    rw [show states.getLast? = some d from h, Option.map_some, Option.getD_some]
  | flat =>
    rw [lineItems, lineItemsEach_eq_map, List.headD_eq_head?_getD, List.head?_map]
    rw [show states.head? = some d from h, Option.map_some, Option.getD_some]

/-- A choice that has a state is measured as one. -/
theorem Mode.exists_measured? {states : List Doc} (mode : Mode) (h : states ≠ []) :
    ∃ d, mode.measured? states = some d := by
  cases mode with
  | broken => exact ⟨_, List.getLast?_eq_some_getLast h⟩
  | flat => exact ⟨_, List.head?_eq_some_head h⟩

/-- Documents one behind the other are measured as what they are read as if each of them is. -/
theorem fitAll_eq_ofItems {ds : List Doc}
    (h : ∀ d ∈ ds, ∀ width, fit strict mode width d = .ofItems strict width (lineItems mode d)) :
    fitAll strict mode width ds = .ofItems strict width (lineItemsEach mode ds).flatten := by
  induction ds generalizing width with
  | nil => rfl
  | cons d ds ih =>
    obtain ⟨hd, hds⟩ := List.forall_mem_cons.mp h
    rw [fitAll_cons, lineItemsEach, List.flatten_cons, Fit.ofItems_append, hd]
    exact congrArg (Fit.andThen _) (funext fun left => ih hds)

mutual

/-- A sound document is measured as what it is read as. -/
theorem Sound.fit_eq_ofItems {p : Prop} : ∀ {d : Doc}, d.Sound p → ∀ (mode : Mode) (width : Nat),
    fit strict mode width d = .ofItems strict width (lineItems mode d)
  | .text s, _, _, _ => by
    rw [fit, lineItems, Fit.ofItems, Fit.ofItems]
  | .concat parts, h, mode, width => by
    rw [fit, lineItems]
    exact fitAll_eq_ofItems fun d hd width => SoundAll.fit_eq_ofItems h d hd mode width
  | .group marked contents, h, mode, width => by
    rw [fit, lineItems]
    cases marked with
    | false =>
      rw [Bool.and_false]
      exact Sound.fit_eq_ofItems (d := contents) h mode width
    | true =>
      rw [if_pos rfl, Fit.ofItems, Bool.and_true]
      split
      · rfl
      · exact Sound.fit_eq_ofItems (d := contents) h .broken width
  | .choice states, h, mode, width => by
    obtain ⟨d, hd⟩ := mode.exists_measured? h.1
    rw [fit_choice, hd, lineItems_choice hd]
    exact SoundAll.fit_eq_ofItems h.2 d (Mode.mem_of_measured? hd) mode width
  | .indent contents, h, mode, width => by
    rw [fit, lineItems]
    exact Sound.fit_eq_ofItems (d := contents) h mode width
  | .fill parts, h, mode, width => by
    rw [fit, lineItems]
    exact fitAll_eq_ofItems fun d hd width => SoundAll.fit_eq_ofItems h d hd mode width
  | .line style, _, mode, width => by
    rw [fit, lineItems]
    split
    · rfl
    · split
      · rfl
      · rfl
  | .suffix _, _, _, _ => by rw [fit, lineItems, Fit.ofItems]
  | .breakParent, _, _, _ => by rw [fit, lineItems, Fit.ofItems]

/-- Each of several sound documents fits as its items do. -/
theorem SoundAll.fit_eq_ofItems {p : Prop} : ∀ {ds : List Doc}, SoundAll p ds → ∀ d ∈ ds,
    ∀ (mode : Mode) (width : Nat),
      fit strict mode width d = .ofItems strict width (lineItems mode d)
  | [], _, _, hd, _, _ => absurd hd List.not_mem_nil
  | e :: es, h, d, hd, mode, width => by
    rcases List.mem_cons.mp hd with heq | hd
    · rw [heq]
      exact Sound.fit_eq_ofItems h.1 mode width
    · exact SoundAll.fit_eq_ofItems h.2 d hd mode width

end

/-- Sound commands are measured as what they are read as, one behind the other. -/
theorem fitCommands_eq_ofItems {p : Prop} {cs : List Command}
    (h : SoundAll p (cs.map Command.doc)) :
    fitCommands strict width cs =
      .ofItems strict width (cs.flatMap fun c => lineItems c.mode c.doc) := by
  induction cs generalizing width with
  | nil => rfl
  | cons c cs ih =>
    rw [fitCommands_cons, List.flatMap_cons, Fit.ofItems_append, h.1.fit_eq_ofItems]
    exact congrArg (Fit.andThen _) (funext fun left => ih h.2)

/-! ## The answer -/

/-- An item that is no line feed is on the first line, in front of what follows. -/
theorem beforeFeed_cons {item : LineItem} (h : item ≠ .feed) (items : List LineItem) :
    beforeFeed (item :: items) = item :: beforeFeed items := by
  simp [beforeFeed, h]

/-- Measuring items answers whether the line they begin with is short enough and, if a marked
group does not fit, whether none begins on it. -/
theorem Fit.answer?_ofItems (items : List LineItem) : (ofItems strict width items).answer? =
    some (decide (lineLength (beforeFeed items) ≤ width ∧
      (strict = true → .marked ∉ beforeFeed items))) := by
  induction items generalizing width with
  | nil => simp [ofItems, answer?, beforeFeed, lineLength]
  | cons item items ih =>
    cases item with
    | text s =>
      rw [ofItems, beforeFeed_cons (by simp), lineLength]
      split
      · rename_i hs
        have hlength : lineLength (beforeFeed items) ≤ width - s.length ↔
            s.length + lineLength (beforeFeed items) ≤ width := by omega
        rw [ih]
        simp [hlength]
      · rename_i hs
        have hlength : ¬ s.length + lineLength (beforeFeed items) ≤ width := by omega
        simp [answer?, hlength]
    | marked =>
      rw [ofItems, beforeFeed_cons (by simp), lineLength]
      split
      · rename_i hstrict
        simp [answer?, hstrict]
      · rename_i hstrict
        rw [ih]
        simp [hstrict]
    | feed => simp [ofItems, answer?, beforeFeed, lineLength]

/-- Sound commands fit if their first line is short enough and, if a marked group does not
fit, none begins on it. -/
theorem fits?_eq_firstLine {p : Prop} {cs : List Command} (room : Int)
    (h : SoundAll p (cs.map Command.doc)) :
    fits? strict room cs = some (decide ((lineLength (firstLine cs) : Int) ≤ room ∧
      (strict = true → .marked ∉ firstLine cs))) := by
  by_cases hroom : room < 0
  · have hlength : ¬ (lineLength (firstLine cs) : Int) ≤ room := by omega
    rw [fits?_of_neg hroom]
    simp [hlength]
  · obtain ⟨width, rfl⟩ := Int.eq_ofNat_of_zero_le (Int.not_lt.mp hroom)
    rw [fits?_natCast, fitCommands_eq_ofItems h, Fit.answer?_ofItems, firstLine]
    simp

end Measure

/-- If every choice in a command and in those that follow it has a state, the look-ahead at
them, whatever the room, comes to an answer: whether their first line is no longer than the
room, and where a marked group does not fit, also whether none begins on that line. -/
theorem Lookahead.answers_firstLine (room : Int) {c : Command} {rest : List Command}
    (hsound : SoundAll True ((c :: rest).map Command.doc)) {fuel : Nat}
    (hfuel : (start room c rest).weight < fuel) :
    (start room c rest).run false fuel =
        some (decide ((lineLength (firstLine (c :: rest)) : Int) ≤ room)) ∧
      (start room c rest).run true fuel =
        some (decide ((lineLength (firstLine (c :: rest)) : Int) ≤ room ∧
          .marked ∉ firstLine (c :: rest))) := by
  constructor
  · rw [run_start hfuel, fits?_eq_firstLine room hsound]
    simp
  · rw [run_start hfuel, fits?_eq_firstLine room hsound]
    simp

/-- A call that is measured flat. -/
def flatCall : Command :=
  ⟨1, .flat, .concat ["f(", .choice ["a", hardline], .fill [",", space, "b"], .suffix "n", ")"]⟩

/-- What follows the call: the end of its line, then a group that is marked broken. -/
def behindCall : List Command :=
  [⟨0, .broken, .group false ";"⟩, ⟨0, .flat, .group true (.concat [softline, "c"])⟩]

/-- The line of a call takes all of the room, and a marked group begins at its end: it fits,
but not where marked groups do not. -/
theorem Lookahead.answers_firstLine_flatCall :
    SoundAll True ((flatCall :: behindCall).map Command.doc) ∧
      (start 8 flatCall behindCall).weight < 40 ∧
      (start 8 flatCall behindCall).run false 40 = some true ∧
      (start 8 flatCall behindCall).run true 40 = some false := by
  have hsound : SoundAll True ((flatCall :: behindCall).map Command.doc) := by
    simp [flatCall, behindCall]
  have hfuel : (start 8 flatCall behindCall).weight < 40 := by decide
  obtain ⟨hloose, hstrict⟩ := answers_firstLine 8 hsound hfuel
  exact ⟨hsound, hfuel, hloose.trans (by decide), hstrict.trans (by decide)⟩

end JavaFormat.Doc
