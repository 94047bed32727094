import JavaFormat.Proofs.Doc.Printing
import JavaFormat.Proofs.Doc.Spelling

/-!
# What a document without suffixes shows

A script does not tell whether a break that is left out prints a space or nothing. Where
words have to be kept apart this is what matters, so the glyphs that a document *shows* tell
it: a break is a break, a space or nothing. Only documents without suffixes show anything,
and what is rendered of such a document is one of the things that it shows.
-/

namespace JavaFormat.Doc

mutual

/-- Whether glyphs are among those that picking a state of every choice and taking or leaving
every break gives. -/
def Shows : Doc → List Glyph → Prop
  | .text s, gs => gs = typed s
  | .concat parts, gs => ShowsAll parts gs
  | .group _ contents, gs => Shows contents gs
  | .choice states, gs => ShowsAny states gs
  | .indent contents, gs => Shows contents gs
  | .fill parts, gs => ShowsAll parts gs
  | .line style, gs =>
    gs = [.ofStyle style] ∨ style.hard = false ∧ gs = if style.soft then [] else [.char ' ']
  | .suffix _, _ => False
  | .breakParent, gs => gs = []

/-- What documents that stand one after the other show. -/
def ShowsAll : List Doc → List Glyph → Prop
  | [], gs => gs = []
  | d :: ds, gs => ∃ a b, Shows d a ∧ ShowsAll ds b ∧ gs = a ++ b

/-- What one of several documents shows. -/
def ShowsAny : List Doc → List Glyph → Prop
  | [], _ => False
  | d :: ds, gs => Shows d gs ∨ ShowsAny ds gs

end

attribute [simp] Shows ShowsAll ShowsAny

/-- What is shown by a state is shown by the choice. -/
theorem showsAny_of_mem {d : Doc} {ds : List Doc} {gs : List Glyph} (hd : d ∈ ds)
    (hgs : d.Shows gs) : ShowsAny ds gs := by
  induction ds with
  | nil => cases hd
  | cons e es ih =>
    rcases List.mem_cons.mp hd with rfl | hd
    · exact Or.inl hgs
    · exact Or.inr (ih hd)

/-- What two lists of documents show is what the first and what the second shows. -/
theorem showsAll_append {ds es : List Doc} {gs : List Glyph} :
    ShowsAll (ds ++ es) gs ↔ ∃ a b, ShowsAll ds a ∧ ShowsAll es b ∧ gs = a ++ b := by
  induction ds generalizing gs with
  | nil => simp
  | cons d ds ih =>
    simp only [List.cons_append, ShowsAll, ih]
    constructor
    · rintro ⟨a, b, ha, ⟨b₁, b₂, h₁, h₂, rfl⟩, rfl⟩
      exact ⟨a ++ b₁, b₂, ⟨a, b₁, ha, h₁, rfl⟩, h₂, (List.append_assoc ..).symm⟩
    · rintro ⟨_, b₂, ⟨a, b₁, ha, h₁, rfl⟩, h₂, rfl⟩
      exact ⟨a, b₁ ++ b₂, ha, ⟨b₁, b₂, h₁, h₂, rfl⟩, List.append_assoc ..⟩

/-! ## The functions that documents are built with -/

section Builders

variable {ds : List Doc} {gs : List Glyph}

/-- Opening a concatenation and dropping an empty text changes nothing that is shown. -/
theorem showsAll_flatten {d : Doc} : ShowsAll d.flatten gs ↔ d.Shows gs := by
  rcases flatten_cases d with ⟨rfl, h⟩ | ⟨parts, rfl, h⟩ | h
  all_goals simp [h]

/-- Joined documents show what the list of them shows. -/
@[simp] theorem shows_cat : (cat ds).Shows gs ↔ ShowsAll ds gs := by
  have hparts : ∀ es : List Doc, (ofParts es).Shows gs ↔ ShowsAll es gs := by
    intro es
    unfold ofParts
    split <;> simp
  rw [cat, hparts]
  clear hparts
  induction ds generalizing gs with
  | nil => rfl
  | cons d ds ih => simp only [List.flatMap_cons, showsAll_append, showsAll_flatten, ShowsAll, ih]

/-- A group of documents shows what the list of them shows. -/
@[simp] theorem shows_grouped : (grouped ds).Shows gs ↔ ShowsAll ds gs := by simp [grouped]

/-- Indented documents show what the list of them shows. -/
@[simp] theorem shows_indented : (indented ds).Shows gs ↔ ShowsAll ds gs := by simp [indented]

/-- Documents joined with a separator show what they show with it between them. -/
@[simp] theorem shows_join {separator : Doc} :
    (join separator ds).Shows gs ↔ ShowsAll (interleave separator ds) gs := by simp [join]

/-- A space is a break or a space. -/
@[simp] theorem shows_space : space.Shows gs ↔ gs = [.stop] ∨ gs = [.char ' '] := by
  simp [space, Glyph.ofStyle]

/-- A soft line break is a break or nothing. -/
@[simp] theorem shows_softline : softline.Shows gs ↔ gs = [.stop] ∨ gs = [] := by
  simp [softline, Glyph.ofStyle]

/-- A hard line break is a break. -/
@[simp] theorem shows_hardline : hardline.Shows gs ↔ gs = [.stop] := by
  simp [hardline, Glyph.ofStyle]

end Builders

/-! ## Documents without a choice -/

mutual

/-- Where every break is certain, what is shown is a script. -/
theorem Rigid.scripts_of_shows : ∀ {d : Doc}, d.Rigid → ∀ {gs : List Glyph}, d.Shows gs →
    d.Scripts (prompt gs)
  | .text _, _, _, h => congrArg prompt h
  | .concat _, hd, _, h => RigidAll.scripts_of_shows hd h
  | .line style, hd, gs, h => by
    rcases h with rfl | ⟨hsoft, -⟩
    · exact .inl rfl
    · rw [show style.hard = true from hd] at hsoft
      cases hsoft
  | .breakParent, _, _, h => congrArg prompt h

/-- What rigid documents show is their script. -/
theorem RigidAll.scripts_of_shows : ∀ {ds : List Doc}, RigidAll ds → ∀ {gs : List Glyph},
    ShowsAll ds gs → ScriptsAll ds (prompt gs)
  | [], _, _, h => congrArg prompt h
  | _ :: _, hd, _, ⟨a, b, ha, hb, hsplit⟩ =>
    ⟨prompt a, prompt b, hd.1.scripts_of_shows ha, RigidAll.scripts_of_shows hd.2 hb, by
      rw [hsplit, prompt_append]⟩

end

/-- A text that is printed line by line shows its characters. -/
theorem eq_of_shows_ofLines {s : String} {gs : List Glyph} (h : (ofLines s).Shows gs) :
    gs = s.toList.map Glyph.ofChar := by
  have hrigid : (ofLines s).Rigid := by
    unfold ofLines
    split
    · exact rigid_join (by simp [literalline]) _
    · trivial
  exact prompt_inj.mp (scripts_ofLines.mp (hrigid.scripts_of_shows h))

/-! ## What is rendered is shown -/

mutual

/-- Marking groups changes nothing that is shown. -/
theorem shows_markBreaks : ∀ (d : Doc) {gs : List Glyph}, d.markBreaks.Shows gs ↔ d.Shows gs
  | .text _, _ => Iff.rfl
  | .concat parts, _ => by simpa [markBreaks] using showsAll_markBreaksAll parts
  | .group _ contents, _ => by simpa [markBreaks] using shows_markBreaks contents
  | .choice states, _ => by simpa [markBreaks] using showsAny_markBreaksAll states
  | .indent contents, _ => by simpa [markBreaks] using shows_markBreaks contents
  | .fill parts, _ => by simpa [markBreaks] using showsAll_markBreaksAll parts
  | .line _, _ => Iff.rfl
  | .suffix _, _ => Iff.rfl
  | .breakParent, _ => Iff.rfl

/-- Marking the groups of a list changes nothing that it shows. -/
theorem showsAll_markBreaksAll : ∀ (ds : List Doc) {gs : List Glyph},
    ShowsAll (markBreaksAll ds) gs ↔ ShowsAll ds gs
  | [], _ => Iff.rfl
  | d :: ds, _ => by
    simp only [markBreaksAll, ShowsAll, shows_markBreaks d, showsAll_markBreaksAll ds]

/-- Marking the groups of several documents changes nothing that one of them shows. -/
theorem showsAny_markBreaksAll : ∀ (ds : List Doc) {gs : List Glyph},
    ShowsAny (markBreaksAll ds) gs ↔ ShowsAny ds gs
  | [], _ => Iff.rfl
  | d :: ds, _ => by
    simp only [markBreaksAll, ShowsAny, shows_markBreaks d, showsAny_markBreaksAll ds]

end

/-- What the commands in the place of a command show, the command shows. -/
theorem Expansion.shows {c : Command} {cs : List Command} (h : Expansion c cs) {gs : List Glyph}
    (hgs : ShowsAll (cs.map Command.doc) gs) : c.doc.Shows gs := by
  cases h with
  | @concat l m ds =>
    have hdocs : (ds.map (⟨l, m, ·⟩ : Doc → Command)).map Command.doc = ds := by
      simp [Function.comp_def]
    rw [hdocs] at hgs
    exact hgs
  | choice hd m' =>
    obtain ⟨a, _, ha, rfl, rfl⟩ := hgs
    rw [List.append_nil]
    exact showsAny_of_mem hd ha
  | fillMore m₁ m₂ =>
    obtain ⟨a, _, ha, ⟨b, _, hb, ⟨c, _, hc, rfl, rfl⟩, rfl⟩, rfl⟩ := hgs
    rw [List.append_nil]
    exact ⟨a, b ++ c, ha, ⟨b, c, hb, hc, rfl⟩, rfl⟩
  | group marked m' =>
    obtain ⟨a, _, ha, rfl, rfl⟩ := hgs
    rw [List.append_nil]
    exact ha
  | indent =>
    obtain ⟨a, _, ha, rfl, rfl⟩ := hgs
    rw [List.append_nil]
    exact ha
  | _ => exact hgs

/-- Whether what is left to do in a state in which nothing waits can be shown so that the
output is `out`. -/
def State.Shows (s : State) (out : List Char) : Prop :=
  ∃ gs, ShowsAll (s.stack.map Command.doc) gs ∧ Emits s.printed gs out

/-- What is shown after a move is shown by going on from the state before it, and nothing
is ever put off. -/
theorem Move.shows {options : Options} {s s' : State} (hm : Move options s s')
    (hs : s.Sound False) (hwaits : s.suffixes = []) :
    s'.suffixes = [] ∧ ∀ {out : List Char}, s'.Shows out → s.Shows out := by
  cases hm with
  | @expand c cs rest hstack hc again =>
    refine ⟨hwaits, ?_⟩
    rintro out ⟨gs, hgs, he⟩
    rw [List.map_append] at hgs
    obtain ⟨a, b, ha, hb, rfl⟩ := showsAll_append.mp hgs
    refine ⟨a ++ b, ?_, he⟩
    rw [hstack]
    exact ⟨a, b, hc.shows ha, hb, rfl⟩
  | @text l m t rest hstack =>
    refine ⟨hwaits, ?_⟩
    rintro out ⟨gs, hgs, he⟩
    refine ⟨typed t ++ gs, ?_, he.typed⟩
    rw [hstack]
    exact ⟨_, gs, rfl, hgs, rfl⟩
  | @defer l m d rest hstack =>
    have hsound := hs.1
    rw [hstack] at hsound
    exact absurd hsound.1.1 id
  | @glue l style rest hstack hh hsoft =>
    refine ⟨hwaits, ?_⟩
    rintro out ⟨gs, hgs, he⟩
    refine ⟨gs, ?_, he⟩
    rw [hstack]
    exact ⟨[], gs, .inr ⟨hh, by rw [if_pos hsoft]⟩, hgs, rfl⟩
  | @blank l style rest hstack hh hsoft =>
    refine ⟨hwaits, ?_⟩
    rintro out ⟨gs, hgs, he⟩
    refine ⟨.char ' ' :: gs, ?_, .char ' ' he⟩
    rw [hstack]
    exact ⟨[.char ' '], gs, .inr ⟨hh, by rw [hsoft]; rfl⟩, hgs, rfl⟩
  | flush hstack hb hw again => exact absurd hwaits hw
  | @newline l m style rest hstack hb hw again =>
    refine ⟨(State.breakLine_suffixes ..).trans hwaits, ?_⟩
    rintro out ⟨gs, hgs, he⟩
    rw [State.breakLine_stack] at hgs
    refine ⟨.ofStyle style :: gs, ?_, he.breakLine⟩
    rw [hstack]
    exact ⟨[.ofStyle style], gs, .inl rfl, hgs, rfl⟩
  | last hstack hw => exact absurd hwaits hw

/-- A run shows what was left to do in the state it began in. -/
theorem exists_shows {options : Options} {s s' : State}
    (hmoves : Relation.ReflTransGen (Move options) s s') (hs : s.Sound False)
    (hwaits : s.suffixes = []) (hstack : s'.stack = []) : s.Shows s'.printed := by
  induction hmoves using Relation.ReflTransGen.head_induction_on with
  | refl =>
    refine ⟨[], ?_, .done⟩
    rw [hstack]
    rfl
  | head hm _ ih =>
    obtain ⟨hwaits', hshows⟩ := hm.shows hs hwaits
    exact hshows (ih (hm.sound hs) hwaits')

/-- A sound document without suffixes is rendered, and the output is one of the things that
it shows. -/
theorem exists_shown (options : Options) {d : Doc} (hd : d.Sound False) :
    ∃ out gs, render? options d = some out ∧ d.Shows gs ∧ Emits [] gs out.toList.reverse := by
  obtain ⟨s, hrender, hmoves, hstack, -⟩ := exists_moves options hd
  have hinitial : (State.initial d.markBreaks).Sound False :=
    ⟨⟨sound_markBreaks hd, trivial⟩, trivial⟩
  obtain ⟨_, ⟨gs, _, hgs, rfl, rfl⟩, he⟩ := exists_shows hmoves hinitial rfl hstack
  rw [List.append_nil] at he
  refine ⟨String.ofList s.printed.reverse, gs, hrender, (shows_markBreaks d).mp hgs, ?_⟩
  rw [String.toList_ofList, List.reverse_reverse]
  exact he

end JavaFormat.Doc
