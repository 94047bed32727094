import JavaFormat.Proofs.Doc.Reading

/-!
# Reading a document with what is put off

A reading takes what a suffix holds where the suffix stands, but it is printed further
on, in front of the next line break. A script is a reading that keeps the two apart. It
also says of every place where a line may break whether it does, and it tells the
certain break of a text of several lines from a line feed in a text, because suffixes
that wait are printed in front of the one and not of the other.

A document is shallow if no suffix stands inside another one, so that what a suffix
holds is printed in one go.
-/

namespace JavaFormat.Doc

/-- What is printed where it stands. -/
inductive Glyph
  /-- A character of a text. -/
  | char (c : Char)
  /-- A place where a line may break and does not. -/
  | gap
  /-- A line break. -/
  | stop
  /-- The certain break of a text of several lines. -/
  | feed

namespace Glyph

/-- What a glyph is read as. -/
def reading : Glyph → Option Char
  | .char c => some c
  | .gap => none
  | .stop => none
  | .feed => some '\n'

/-- The glyph of a character in a text of several lines. -/
def ofChar (c : Char) : Glyph := if c = '\n' then .feed else .char c

/-- A character reads as itself. -/
@[simp] theorem reading_ofChar (c : Char) : (ofChar c).reading = some c := by
  unfold ofChar
  split
  · rename_i hc
    rw [hc, reading]
  · rfl

/-- Whether the line ends at a glyph for certain. -/
def IsBreak (g : Glyph) : Prop := g = .stop ∨ g = .feed

/-- The glyph of a break that is taken. -/
def ofStyle (style : LineStyle) : Glyph := if style.hard && style.literal then .feed else .stop

/-- A line break that is not left out ends the line. -/
theorem isBreak_ofStyle (style : LineStyle) : (ofStyle style).IsBreak := by
  unfold ofStyle
  split
  · exact .inr rfl
  · exact .inl rfl

/-- A line break reads as a line feed if it belongs to a text, and may be blank otherwise. -/
theorem reading_ofStyle (style : LineStyle) :
    (ofStyle style).reading = if style.hard && style.literal then some '\n' else none := by
  unfold ofStyle
  split <;> rfl

end Glyph

/-- The glyphs of a text that is printed in one piece. -/
def typed (s : String) : List Glyph := s.toList.map .char

/-- Nothing is typed for the empty text. -/
@[simp] theorem typed_empty : typed "" = [] := rfl

/-- The glyphs of two texts together. -/
theorem typed_append (s t : String) : typed (s ++ t) = typed s ++ typed t := by
  simp [typed]

/-- What glyphs are read as. -/
def readOff (gs : List Glyph) : Reading := gs.map Glyph.reading

/-- No glyphs read as nothing. -/
@[simp] theorem readOff_nil : readOff [] = [] := rfl

/-- The first glyph is read in front of the others. -/
@[simp] theorem readOff_cons (g : Glyph) (gs : List Glyph) :
    readOff (g :: gs) = g.reading :: readOff gs := rfl

/-- Two stretches of glyphs are read one after the other. -/
@[simp] theorem readOff_append (gs hs : List Glyph) :
    readOff (gs ++ hs) = readOff gs ++ readOff hs :=
  List.map_append

/-- Characters are read as they are, whether they stand in a text of one line or of
several. -/
theorem readOff_map_of_forall {f : Char → Glyph} (hf : ∀ c, (f c).reading = some c)
    (cs : List Char) : readOff (cs.map f) = cs.map some := by
  rw [readOff, List.map_map]
  exact List.map_congr_left fun c _ => hf c

/-- What is typed of a text reads as its ink. -/
@[simp] theorem readOff_typed (s : String) : readOff (typed s) = inked s :=
  readOff_map_of_forall (fun _ => rfl) s.toList

/-- What is found in a document, in the order in which it stands there. -/
inductive Cue
  /-- What is printed where it stands. -/
  | now (g : Glyph)
  /-- What is put off to the next line break. -/
  | later (gs : List Glyph)

/-- The glyphs of a cue, wherever they are printed. -/
def Cue.glyphs : Cue → List Glyph
  | .now g => [g]
  | .later gs => gs

/-- Glyphs that are printed where they stand. -/
def prompt (gs : List Glyph) : List Cue := gs.map .now

/-- No glyphs make no script. -/
@[simp] theorem prompt_nil : prompt [] = [] := rfl

/-- The first glyph is printed where it stands, in front of the others. -/
@[simp] theorem prompt_cons (g : Glyph) (gs : List Glyph) :
    prompt (g :: gs) = .now g :: prompt gs := rfl

/-- Two stretches of glyphs that are printed where they stand. -/
@[simp] theorem prompt_append (gs hs : List Glyph) : prompt (gs ++ hs) = prompt gs ++ prompt hs :=
  List.map_append

/-- The glyphs of a script, wherever they are printed. -/
def glyphs (q : List Cue) : List Glyph := q.flatMap Cue.glyphs

/-- The empty script has no glyphs. -/
@[simp] theorem glyphs_nil : glyphs [] = [] := rfl

/-- A glyph that is printed where it stands is in front of those of the others. -/
@[simp] theorem glyphs_now (g : Glyph) (q : List Cue) : glyphs (.now g :: q) = g :: glyphs q := rfl

/-- Glyphs that are put off are in front of those of the cues that follow. -/
@[simp] theorem glyphs_later (gs : List Glyph) (q : List Cue) :
    glyphs (.later gs :: q) = gs ++ glyphs q := rfl

/-- The glyphs of two scripts together. -/
@[simp] theorem glyphs_append (q₁ q₂ : List Cue) : glyphs (q₁ ++ q₂) = glyphs q₁ ++ glyphs q₂ :=
  List.flatMap_append

/-- Glyphs that are printed where they stand are those of their script. -/
@[simp] theorem glyphs_prompt (gs : List Glyph) : glyphs (prompt gs) = gs := by
  induction gs with
  | nil => rfl
  | cons g gs ih => exact congrArg (g :: ·) ih

/-- Scripts that put nothing off are the same if their glyphs are. -/
theorem prompt_inj {gs hs : List Glyph} : prompt gs = prompt hs ↔ gs = hs :=
  ⟨fun h => by rw [← glyphs_prompt gs, h, glyphs_prompt], congrArg prompt⟩

mutual

/-- Whether a script is one of those that picking a state of every choice and taking or
leaving every break gives. -/
def Scripts : Doc → List Cue → Prop
  | .text s, q => q = prompt (typed s)
  | .concat parts, q => ScriptsAll parts q
  | .group _ contents, q => Scripts contents q
  | .choice states, q => ScriptsAny states q
  | .indent contents, q => Scripts contents q
  | .fill parts, q => ScriptsAll parts q
  | .line style, q => q = [.now (.ofStyle style)] ∨ style.hard = false ∧ q = [.now .gap]
  | .suffix contents, q => ∃ gs, contents.Scripts (prompt gs) ∧ q = [.later gs]
  | .breakParent, q => q = []

/-- Scripts of documents that stand one after the other. -/
def ScriptsAll : List Doc → List Cue → Prop
  | [], q => q = []
  | d :: ds, q => ∃ a b, Scripts d a ∧ ScriptsAll ds b ∧ q = a ++ b

/-- Scripts of one of several documents. -/
def ScriptsAny : List Doc → List Cue → Prop
  | [], _ => False
  | d :: ds, q => Scripts d q ∨ ScriptsAny ds q

end

mutual

/-- No suffix of a document stands inside another one. -/
def Shallow : Doc → Prop
  | .text _ => True
  | .concat parts => ShallowAll parts
  | .group _ contents => Shallow contents
  | .choice states => ShallowAll states
  | .indent contents => Shallow contents
  | .fill parts => ShallowAll parts
  | .line _ => True
  | .suffix contents => contents.Sound False
  | .breakParent => True

/-- Several documents are shallow. -/
def ShallowAll : List Doc → Prop
  | [] => True
  | d :: ds => Shallow d ∧ ShallowAll ds

end

attribute [simp] Scripts ScriptsAll ScriptsAny Shallow ShallowAll

mutual

/-- A document without suffixes is printed where it stands. -/
theorem Sound.exists_prompt : ∀ {d : Doc} {q : List Cue}, d.Sound False → d.Scripts q →
    ∃ gs, q = prompt gs
  | .text s, _, _, h => ⟨typed s, h⟩
  | .concat _, _, hd, h => SoundAll.exists_prompt hd h
  | .group _ contents, _, hd, h => Sound.exists_prompt (d := contents) hd h
  | .choice _, _, hd, h => SoundAll.exists_prompt_any hd.2 h
  | .indent contents, _, hd, h => Sound.exists_prompt (d := contents) hd h
  | .fill _, _, hd, h => SoundAll.exists_prompt hd h
  | .line style, _, _, h => by
    rcases h with rfl | ⟨-, rfl⟩
    · exact ⟨[.ofStyle style], rfl⟩
    · exact ⟨[.gap], rfl⟩
  | .breakParent, _, _, h => ⟨[], h⟩

/-- A list without suffixes puts nothing off. -/
theorem SoundAll.exists_prompt : ∀ {ds : List Doc} {q : List Cue}, SoundAll False ds →
    ScriptsAll ds q → ∃ gs, q = prompt gs
  | [], _, _, h => ⟨[], h⟩
  | _ :: _, _, hd, h => by
    obtain ⟨a, b, ha, hb, rfl⟩ := h
    obtain ⟨gs, rfl⟩ := Sound.exists_prompt hd.1 ha
    obtain ⟨hs, rfl⟩ := SoundAll.exists_prompt hd.2 hb
    exact ⟨gs ++ hs, (prompt_append gs hs).symm⟩

/-- None of several documents without suffixes puts anything off. -/
theorem SoundAll.exists_prompt_any : ∀ {ds : List Doc} {q : List Cue}, SoundAll False ds →
    ScriptsAny ds q → ∃ gs, q = prompt gs
  | _ :: _, _, hd, Or.inl h => Sound.exists_prompt hd.1 h
  | _ :: _, _, hd, Or.inr h => SoundAll.exists_prompt_any hd.2 h

end

mutual

/-- A document without suffixes is shallow. -/
theorem Sound.shallow : ∀ {d : Doc}, d.Sound False → d.Shallow
  | .text _, _ => trivial
  | .concat _, h => SoundAll.shallow h
  | .group _ contents, h => Sound.shallow (d := contents) h
  | .choice _, h => SoundAll.shallow h.2
  | .indent contents, h => Sound.shallow (d := contents) h
  | .fill _, h => SoundAll.shallow h
  | .line _, _ => trivial
  | .suffix _, h => h.2
  | .breakParent, _ => trivial

/-- Documents without suffixes are shallow. -/
theorem SoundAll.shallow : ∀ {ds : List Doc}, SoundAll False ds → ShallowAll ds
  | [], _ => trivial
  | _ :: _, h => ⟨Sound.shallow h.1, SoundAll.shallow h.2⟩

end

/-! ## Scripts and readings -/

mutual

/-- The readings of a document are its scripts with what is put off read where it
stands. -/
theorem reads_iff_scripts : ∀ {d : Doc} {r : Reading}, d.Shallow →
    (d.Reads r ↔ ∃ q, d.Scripts q ∧ readOff (glyphs q) = r)
  | .text s, r, _ => by simp [eq_comm]
  | .concat _, _, hd => readsAll_iff_scripts hd
  | .group _ contents, _, hd => reads_iff_scripts (d := contents) hd
  | .choice _, _, hd => readsAny_iff_scripts hd
  | .indent contents, _, hd => reads_iff_scripts (d := contents) hd
  | .fill _, _, hd => readsAll_iff_scripts hd
  | .line style, r, _ => by
    constructor
    · rintro rfl
      exact ⟨[.now (.ofStyle style)], .inl rfl, by simp [Glyph.reading_ofStyle]⟩
    · rintro ⟨_, rfl | ⟨hsoft, rfl⟩, rfl⟩
      · simp [Glyph.reading_ofStyle]
      · simp [hsoft, Glyph.reading]
  | .suffix contents, r, hd => by
    have hcontents := reads_iff_scripts (d := contents) (r := r) hd.shallow
    constructor
    · intro h
      obtain ⟨q, hq, hr⟩ := hcontents.mp h
      obtain ⟨gs, rfl⟩ := hd.exists_prompt hq
      exact ⟨[.later gs], ⟨gs, hq, rfl⟩, by simpa using hr⟩
    · rintro ⟨_, ⟨gs, hq, rfl⟩, hr⟩
      exact hcontents.mpr ⟨prompt gs, hq, by simpa using hr⟩
  | .breakParent, r, _ => by simp [eq_comm]

/-- Shallow documents read as the glyphs of their scripts do. -/
theorem readsAll_iff_scripts : ∀ {ds : List Doc} {r : Reading}, ShallowAll ds →
    (ReadsAll ds r ↔ ∃ q, ScriptsAll ds q ∧ readOff (glyphs q) = r)
  | [], r, _ => by simp [eq_comm]
  | d :: ds, r, hd => by
    simp only [ReadsAll, ScriptsAll, reads_iff_scripts hd.1, readsAll_iff_scripts hd.2]
    constructor
    · rintro ⟨_, _, ⟨a, ha, rfl⟩, ⟨b, hb, rfl⟩, rfl⟩
      exact ⟨a ++ b, ⟨a, b, ha, hb, rfl⟩, by rw [glyphs_append, readOff_append]⟩
    · rintro ⟨_, ⟨a, b, ha, hb, rfl⟩, rfl⟩
      exact ⟨_, _, ⟨a, ha, rfl⟩, ⟨b, hb, rfl⟩, by rw [glyphs_append, readOff_append]⟩

/-- Each of several shallow documents reads as the glyphs of its scripts do. -/
theorem readsAny_iff_scripts : ∀ {ds : List Doc} {r : Reading}, ShallowAll ds →
    (ReadsAny ds r ↔ ∃ q, ScriptsAny ds q ∧ readOff (glyphs q) = r)
  | [], r, _ => by simp
  | d :: ds, r, hd => by
    simp only [ReadsAny, ScriptsAny, reads_iff_scripts hd.1, readsAny_iff_scripts hd.2,
      or_and_right, exists_or]

end

/-- A script of a state is a script of the choice. -/
theorem scriptsAny_of_mem {d : Doc} {ds : List Doc} {q : List Cue} (hd : d ∈ ds)
    (hq : d.Scripts q) : ScriptsAny ds q := by
  induction ds with
  | nil => cases hd
  | cons e es ih =>
    rcases List.mem_cons.mp hd with rfl | hd
    · exact Or.inl hq
    · exact Or.inr (ih hd)

/-- A script of two lists of documents is one of the first and one of the second. -/
theorem scriptsAll_append {ds es : List Doc} {q : List Cue} :
    ScriptsAll (ds ++ es) q ↔ ∃ a b, ScriptsAll ds a ∧ ScriptsAll es b ∧ q = a ++ b := by
  induction ds generalizing q with
  | nil => simp
  | cons d ds ih =>
    simp only [List.cons_append, ScriptsAll, ih]
    constructor
    · rintro ⟨a, b, ha, ⟨b₁, b₂, h₁, h₂, rfl⟩, rfl⟩
      exact ⟨a ++ b₁, b₂, ⟨a, b₁, ha, h₁, rfl⟩, h₂, (List.append_assoc ..).symm⟩
    · rintro ⟨_, b₂, ⟨a, b₁, ha, h₁, rfl⟩, h₂, rfl⟩
      exact ⟨a, b₁ ++ b₂, ha, ⟨b₁, b₂, h₁, h₂, rfl⟩, List.append_assoc ..⟩

/-- Documents are shallow if each of them is. -/
theorem shallowAll_iff {ds : List Doc} : ShallowAll ds ↔ ∀ d ∈ ds, d.Shallow := by
  induction ds with
  | nil => simp
  | cons d ds ih => simp [ih]

/-- Two lists are shallow if both are. -/
theorem shallowAll_append {ds es : List Doc} :
    ShallowAll (ds ++ es) ↔ ShallowAll ds ∧ ShallowAll es := by
  simp only [shallowAll_iff, List.mem_append, or_imp, forall_and]

/-! ## The functions that documents are built with -/

/-- Opening a concatenation and dropping an empty text changes no script. -/
theorem scriptsAll_flatten {d : Doc} {q : List Cue} : ScriptsAll d.flatten q ↔ d.Scripts q := by
  rcases flatten_cases d with ⟨rfl, h⟩ | ⟨parts, rfl, h⟩ | h
  all_goals simp [h]

/-- The parts that a document is taken apart into are shallow if the document is. -/
theorem shallowAll_flatten {d : Doc} : ShallowAll d.flatten ↔ d.Shallow := by
  rcases flatten_cases d with ⟨rfl, h⟩ | ⟨parts, rfl, h⟩ | h
  all_goals simp [h]

/-- A part that stands for itself has the scripts of the concatenation of it alone. -/
theorem scripts_ofParts {ds : List Doc} {q : List Cue} :
    (ofParts ds).Scripts q ↔ ScriptsAll ds q := by
  unfold ofParts
  split <;> simp

/-- A document that is put together is shallow if its parts are. -/
theorem shallow_ofParts {ds : List Doc} : (ofParts ds).Shallow ↔ ShallowAll ds := by
  unfold ofParts
  split <;> simp

/-- Joined documents have the scripts of the list of them. -/
@[simp] theorem scripts_cat {ds : List Doc} {q : List Cue} :
    (cat ds).Scripts q ↔ ScriptsAll ds q := by
  rw [cat, scripts_ofParts]
  induction ds generalizing q with
  | nil => rfl
  | cons d ds ih =>
    simp only [List.flatMap_cons, scriptsAll_append, scriptsAll_flatten, ScriptsAll, ih]

/-- Joined documents are shallow if each of them is. -/
@[simp] theorem shallow_cat {ds : List Doc} : (cat ds).Shallow ↔ ShallowAll ds := by
  rw [cat, shallow_ofParts]
  induction ds with
  | nil => rfl
  | cons d ds ih =>
    simp only [List.flatMap_cons, shallowAll_append, shallowAll_flatten, ShallowAll, ih]

/-- A group of documents has the scripts of the list of them. -/
@[simp] theorem scripts_grouped {ds : List Doc} {q : List Cue} :
    (grouped ds).Scripts q ↔ ScriptsAll ds q := by simp [grouped]

/-- A group of documents is shallow if each of them is. -/
@[simp] theorem shallow_grouped {ds : List Doc} : (grouped ds).Shallow ↔ ShallowAll ds := by
  simp [grouped]

/-- Indented documents have the scripts of the list of them. -/
@[simp] theorem scripts_indented {ds : List Doc} {q : List Cue} :
    (indented ds).Scripts q ↔ ScriptsAll ds q := by simp [indented]

/-- Indented documents are shallow if each of them is. -/
@[simp] theorem shallow_indented {ds : List Doc} : (indented ds).Shallow ↔ ShallowAll ds := by
  simp [indented]

/-- Documents that are put off are one cue, with the glyphs that the list of them has. -/
@[simp] theorem scripts_suffixed {ds : List Doc} {q : List Cue} :
    (suffixed ds).Scripts q ↔ ∃ gs, ScriptsAll ds (prompt gs) ∧ q = [.later gs] := by
  simp [suffixed]

/-- Documents that are put off are shallow if nothing in them is put off. -/
@[simp] theorem shallow_suffixed {ds : List Doc} :
    (suffixed ds).Shallow ↔ SoundAll False ds := by simp [suffixed]

/-- Documents joined with a separator have the scripts that they have with it between them. -/
@[simp] theorem scripts_join {separator : Doc} {ds : List Doc} {q : List Cue} :
    (join separator ds).Scripts q ↔ ScriptsAll (interleave separator ds) q := by simp [join]

/-- A space is a break, or a place where the line may break and does not. -/
@[simp] theorem scripts_space {q : List Cue} :
    space.Scripts q ↔ q = [.now .stop] ∨ q = [.now .gap] := by simp [space, Glyph.ofStyle]

/-- A soft line break is a break, or a place where the line may break and does not. -/
@[simp] theorem scripts_softline {q : List Cue} :
    softline.Scripts q ↔ q = [.now .stop] ∨ q = [.now .gap] := by simp [softline, Glyph.ofStyle]

/-- A hard line break is a break. -/
@[simp] theorem scripts_hardline {q : List Cue} : hardline.Scripts q ↔ q = [.now .stop] := by
  simp [hardline, Glyph.ofStyle]

/-- A literal line break is the break of a text of several lines. -/
@[simp] theorem scripts_literalline {q : List Cue} : literalline.Scripts q ↔ q = [.now .feed] := by
  simp [literalline, Glyph.ofStyle]

/-- A character in front of a line is in front of all lines. -/
theorem scriptsAll_interleave_cons {separator : Doc} {c : Char} {l : List Char} {ds : List Doc}
    {q : List Cue} :
    ScriptsAll (interleave separator (.text (String.ofList (c :: l)) :: ds)) q ↔
      ∃ q', ScriptsAll (interleave separator (.text (String.ofList l) :: ds)) q' ∧
        q = .now (.char c) :: q' := by
  cases ds with
  | nil => simp [interleave, typed]
  | cons d ds =>
    simp only [interleave, ScriptsAll, Scripts, typed, String.toList_ofList, List.map_cons,
      prompt_cons]
    constructor
    · rintro ⟨_, b, rfl, hb, rfl⟩
      exact ⟨_, ⟨_, b, rfl, hb, rfl⟩, rfl⟩
    · rintro ⟨_, ⟨_, b, rfl, hb, rfl⟩, rfl⟩
      exact ⟨_, b, rfl, hb, rfl⟩

/-- The script of a text that is printed line by line. -/
@[simp] theorem scripts_ofLines {s : String} {q : List Cue} :
    (ofLines s).Scripts q ↔ q = prompt (s.toList.map Glyph.ofChar) := by
  have hlines : ∀ (cs : List Char) (q : List Cue),
      ScriptsAll (interleave literalline
        ((cs.splitOn '\n').map fun l => .text (String.ofList l))) q ↔
          q = prompt (cs.map Glyph.ofChar) := by
    intro cs
    induction cs with
    | nil =>
      intro q
      simp [interleave, typed]
    | cons c cs ih =>
      intro q
      obtain ⟨l, ls, hsplit⟩ := List.exists_cons_of_ne_nil (List.splitOn_ne_nil '\n' cs)
      rw [List.splitOn_cons_eq_if_modifyHead]
      rw [hsplit] at ih ⊢
      by_cases hc : c = '\n'
      · simp only [hc, beq_self_eq_true, if_true, List.map_cons, interleave, ScriptsAll, Scripts,
          typed, String.toList_ofList, List.map_nil, scripts_literalline] at ih ⊢
        simp [ih, Glyph.ofChar]
      · have hne : (c == '\n') = false := by simpa using hc
        simp only [hne, Bool.false_eq_true, if_false, List.modifyHead_cons, List.map_cons,
          scriptsAll_interleave_cons] at ih ⊢
        simp [ih, Glyph.ofChar, hc]
  unfold ofLines
  split
  · have hl : (Text.lines s).map Doc.text =
        (s.toList.splitOn '\n').map fun l => .text (String.ofList l) := by
      simp [Text.lines, Function.comp_def]
    rw [if_pos rfl, scripts_join, hl]
    exact hlines s.toList q
  · rename_i hsingle
    have hchars : ∀ c ∈ s.toList, Glyph.char c = Glyph.ofChar c := by
      intro c hc
      have hne : c ≠ '\n' := by
        rintro rfl
        exact hsingle (by simpa [Text.isMultiline] using hc)
      rw [Glyph.ofChar, if_neg hne]
    rw [Scripts, typed, List.map_congr_left hchars]

/-- A text is read as it is, whether or not it has line feeds. -/
@[simp] theorem reads_ofLines {s : String} {r : Reading} : (ofLines s).Reads r ↔ r = inked s := by
  have hshallow : (ofLines s).Shallow := Sound.shallow sound_ofLines
  simp [reads_iff_scripts hshallow, readOff_map_of_forall Glyph.reading_ofChar, inked, eq_comm]

/-! ## Marking groups -/

mutual

/-- Marking groups changes no script. -/
theorem scripts_markBreaks : ∀ (d : Doc) {q : List Cue}, d.markBreaks.Scripts q ↔ d.Scripts q
  | .text _, _ => Iff.rfl
  | .concat parts, q => by simpa [markBreaks] using scriptsAll_markBreaksAll parts
  | .group _ contents, q => by simpa [markBreaks] using scripts_markBreaks contents
  | .choice states, q => by simpa [markBreaks] using scriptsAny_markBreaksAll states
  | .indent contents, q => by simpa [markBreaks] using scripts_markBreaks contents
  | .fill parts, q => by simpa [markBreaks] using scriptsAll_markBreaksAll parts
  | .line _, _ => Iff.rfl
  | .suffix _, _ => Iff.rfl
  | .breakParent, _ => Iff.rfl

/-- Marking the groups of a list changes none of its scripts. -/
theorem scriptsAll_markBreaksAll : ∀ (ds : List Doc) {q : List Cue},
    ScriptsAll (markBreaksAll ds) q ↔ ScriptsAll ds q
  | [], _ => Iff.rfl
  | d :: ds, q => by
    simp only [markBreaksAll, ScriptsAll, scripts_markBreaks d, scriptsAll_markBreaksAll ds]

/-- Marking the groups of several documents changes no script of one of them. -/
theorem scriptsAny_markBreaksAll : ∀ (ds : List Doc) {q : List Cue},
    ScriptsAny (markBreaksAll ds) q ↔ ScriptsAny ds q
  | [], _ => Iff.rfl
  | d :: ds, q => by
    simp only [markBreaksAll, ScriptsAny, scripts_markBreaks d, scriptsAny_markBreaksAll ds]

end

mutual

/-- Marking groups keeps a document shallow. -/
theorem shallow_markBreaks : ∀ {d : Doc}, d.Shallow → d.markBreaks.Shallow
  | .text _, _ => trivial
  | .concat _, h => shallowAll_markBreaksAll h
  | .group _ contents, h => shallow_markBreaks (d := contents) h
  | .choice _, h => shallowAll_markBreaksAll h
  | .indent contents, h => shallow_markBreaks (d := contents) h
  | .fill _, h => shallowAll_markBreaksAll h
  | .line _, _ => trivial
  | .suffix _, h => h
  | .breakParent, _ => trivial

/-- Marking the groups of shallow documents leaves them shallow. -/
theorem shallowAll_markBreaksAll : ∀ {ds : List Doc}, ShallowAll ds → ShallowAll (markBreaksAll ds)
  | [], _ => trivial
  | _ :: _, h => ⟨shallow_markBreaks h.1, shallowAll_markBreaksAll h.2⟩

end

end JavaFormat.Doc
