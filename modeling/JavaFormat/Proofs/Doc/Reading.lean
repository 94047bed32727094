import JavaFormat.Doc.Breaks

/-!
# Reading a document

A document can be read without a width: its texts are taken in their order, one
state is picked of every choice, and what is put off to the end of a line is read
where it stands. A reading keeps the characters and the places where a line may
break. The certain break of a text of several lines is no such place: it always
prints one line feed and nothing else, so it is read as that character.

`Sound` says what rendering needs beyond a reading: every choice has a state, and
nothing is put off unless that is allowed.
-/

namespace JavaFormat.Doc

/-- What is read off a document: characters and, as `none`, places where a line
may break. -/
abbrev Reading := List (Option Char)

/-- The reading of a text. -/
def inked (s : String) : Reading := s.toList.map some

/-- The empty text has no ink. -/
@[simp] theorem inked_empty : inked "" = [] := rfl

mutual

/-- Whether a reading is one of those that picking a state of every choice gives. -/
def Reads : Doc → Reading → Prop
  | .text s, r => r = inked s
  | .concat parts, r => ReadsAll parts r
  | .group _ contents, r => Reads contents r
  | .choice states, r => ReadsAny states r
  | .indent contents, r => Reads contents r
  | .fill parts, r => ReadsAll parts r
  | .line style, r => r = [if style.hard && style.literal then some '\n' else none]
  | .suffix contents, r => Reads contents r
  | .breakParent, r => r = []

/-- Readings of documents that stand one after the other. -/
def ReadsAll : List Doc → Reading → Prop
  | [], r => r = []
  | d :: ds, r => ∃ a b, Reads d a ∧ ReadsAll ds b ∧ r = a ++ b

/-- Readings of one of several documents. -/
def ReadsAny : List Doc → Reading → Prop
  | [], _ => False
  | d :: ds, r => Reads d r ∨ ReadsAny ds r

end

mutual

/-- Every choice has a state, and there are suffixes only if `deferring` holds. -/
def Sound (deferring : Prop) : Doc → Prop
  | .text _ => True
  | .concat parts => SoundAll deferring parts
  | .group _ contents => Sound deferring contents
  | .choice states => states ≠ [] ∧ SoundAll deferring states
  | .indent contents => Sound deferring contents
  | .fill parts => SoundAll deferring parts
  | .line _ => True
  | .suffix contents => deferring ∧ Sound deferring contents
  | .breakParent => True

/-- Several documents are sound. -/
def SoundAll (deferring : Prop) : List Doc → Prop
  | [] => True
  | d :: ds => Sound deferring d ∧ SoundAll deferring ds

end

attribute [simp] Reads ReadsAll ReadsAny Sound SoundAll

/-- A reading of two lists of documents is one of the first and one of the second. -/
theorem readsAll_append {ds es : List Doc} {r : Reading} :
    ReadsAll (ds ++ es) r ↔ ∃ a b, ReadsAll ds a ∧ ReadsAll es b ∧ r = a ++ b := by
  induction ds generalizing r with
  | nil => simp
  | cons d ds ih =>
    simp only [List.cons_append, ReadsAll, ih]
    constructor
    · rintro ⟨a, b, ha, ⟨b₁, b₂, h₁, h₂, rfl⟩, rfl⟩
      exact ⟨a ++ b₁, b₂, ⟨a, b₁, ha, h₁, rfl⟩, h₂, (List.append_assoc ..).symm⟩
    · rintro ⟨c, b₂, ⟨a, b₁, ha, h₁, rfl⟩, h₂, rfl⟩
      exact ⟨a, b₁ ++ b₂, ha, ⟨b₁, b₂, h₁, h₂, rfl⟩, List.append_assoc ..⟩

/-- A single document is read as itself. -/
theorem readsAll_singleton {d : Doc} {r : Reading} : ReadsAll [d] r ↔ d.Reads r := by
  simp

/-- Documents are sound if each of them is. -/
theorem soundAll_iff {deferring : Prop} {ds : List Doc} :
    SoundAll deferring ds ↔ ∀ d ∈ ds, d.Sound deferring := by
  induction ds with
  | nil => simp
  | cons d ds ih => simp [ih]

/-- Two lists are sound if both are. -/
theorem soundAll_append {deferring : Prop} {ds es : List Doc} :
    SoundAll deferring (ds ++ es) ↔ SoundAll deferring ds ∧ SoundAll deferring es := by
  simp only [soundAll_iff, List.mem_append, or_imp, forall_and]

mutual

/-- Suffixes may be allowed where there are none. -/
theorem Sound.mono {p q : Prop} (h : p → q) : ∀ {d : Doc}, d.Sound p → d.Sound q
  | .text _, _ => trivial
  | .concat _, hd => SoundAll.mono h hd
  | .group _ contents, hd => Sound.mono h (d := contents) hd
  | .choice _, hd => ⟨hd.1, SoundAll.mono h hd.2⟩
  | .indent contents, hd => Sound.mono h (d := contents) hd
  | .fill _, hd => SoundAll.mono h hd
  | .line _, _ => trivial
  | .suffix contents, hd => ⟨h hd.1, Sound.mono h (d := contents) hd.2⟩
  | .breakParent, _ => trivial

/-- Documents that are sound under a condition are sound under a weaker one. -/
theorem SoundAll.mono {p q : Prop} (h : p → q) : ∀ {ds : List Doc}, SoundAll p ds → SoundAll q ds
  | [], _ => trivial
  | _ :: _, hd => ⟨Sound.mono h hd.1, SoundAll.mono h hd.2⟩

end

mutual

/-- A sound document can be read. -/
theorem Sound.exists_reads {deferring : Prop} : ∀ {d : Doc}, d.Sound deferring → ∃ r, d.Reads r
  | .text s, _ => ⟨inked s, rfl⟩
  | .concat _, h => SoundAll.exists_reads h
  | .group _ contents, h => Sound.exists_reads (d := contents) h
  | .choice [], h => absurd rfl h.1
  | .choice (d :: _), h => by
    obtain ⟨r, hr⟩ := Sound.exists_reads (d := d) h.2.1
    exact ⟨r, Or.inl hr⟩
  | .indent contents, h => Sound.exists_reads (d := contents) h
  | .fill _, h => SoundAll.exists_reads h
  | .line _, _ => ⟨_, rfl⟩
  | .suffix contents, h => Sound.exists_reads (d := contents) h.2
  | .breakParent, _ => ⟨[], rfl⟩

/-- Sound documents can be read one after the other. -/
theorem SoundAll.exists_reads {deferring : Prop} :
    ∀ {ds : List Doc}, SoundAll deferring ds → ∃ r, ReadsAll ds r
  | [], _ => ⟨[], rfl⟩
  | _ :: _, h => by
    obtain ⟨a, ha⟩ := Sound.exists_reads h.1
    obtain ⟨b, hb⟩ := SoundAll.exists_reads h.2
    exact ⟨a ++ b, a, b, ha, hb, rfl⟩

end

/-! ## The functions that documents are built with -/

/-- Opening a concatenation and dropping an empty text changes no reading. -/
theorem readsAll_flatten {d : Doc} {r : Reading} : ReadsAll d.flatten r ↔ d.Reads r := by
  rcases flatten_cases d with ⟨rfl, h⟩ | ⟨parts, rfl, h⟩ | h
  all_goals simp [h]

/-- The parts that a document is taken apart into are sound if the document is. -/
theorem soundAll_flatten {deferring : Prop} {d : Doc} :
    SoundAll deferring d.flatten ↔ d.Sound deferring := by
  rcases flatten_cases d with ⟨rfl, h⟩ | ⟨parts, rfl, h⟩ | h
  all_goals simp [h]

/-- A part that stands for itself is read as the concatenation of it alone. -/
theorem reads_ofParts {ds : List Doc} {r : Reading} : (ofParts ds).Reads r ↔ ReadsAll ds r := by
  unfold ofParts
  split
  · exact readsAll_singleton.symm
  · rfl

/-- A document that is put together is sound if its parts are. -/
theorem sound_ofParts {deferring : Prop} {ds : List Doc} :
    (ofParts ds).Sound deferring ↔ SoundAll deferring ds := by
  unfold ofParts
  split <;> simp

/-- Joined documents read as the list of them does. -/
@[simp] theorem reads_cat {ds : List Doc} {r : Reading} : (cat ds).Reads r ↔ ReadsAll ds r := by
  rw [cat, reads_ofParts]
  induction ds generalizing r with
  | nil => rfl
  | cons d ds ih =>
    simp only [List.flatMap_cons, readsAll_append, readsAll_flatten, ih, ReadsAll]

/-- Joined documents are sound if each of them is. -/
@[simp] theorem sound_cat {deferring : Prop} {ds : List Doc} :
    (cat ds).Sound deferring ↔ SoundAll deferring ds := by
  rw [cat, sound_ofParts]
  induction ds with
  | nil => rfl
  | cons d ds ih =>
    simp only [List.flatMap_cons, soundAll_append, soundAll_flatten, ih, SoundAll]

/-- A group of documents is sound if each of them is. -/
@[simp] theorem sound_grouped {deferring : Prop} {ds : List Doc} :
    (grouped ds).Sound deferring ↔ SoundAll deferring ds := by simp [grouped]

/-- Indented documents are sound if each of them is. -/
@[simp] theorem sound_indented {deferring : Prop} {ds : List Doc} :
    (indented ds).Sound deferring ↔ SoundAll deferring ds := by simp [indented]

/-- Documents that are put off are sound if each of them is, where putting off is allowed. -/
@[simp] theorem sound_suffixed {deferring : Prop} {ds : List Doc} :
    (suffixed ds).Sound deferring ↔ deferring ∧ SoundAll deferring ds := by simp [suffixed]

/-- Documents joined with a separator read as they do with it between them. -/
@[simp] theorem reads_join {separator : Doc} {ds : List Doc} {r : Reading} :
    (join separator ds).Reads r ↔ ReadsAll (interleave separator ds) r := by simp [join]

/-- Documents joined with a separator are sound if they are with it between them. -/
@[simp] theorem sound_join {deferring : Prop} {separator : Doc} {ds : List Doc} :
    (join separator ds).Sound deferring ↔ SoundAll deferring (interleave separator ds) := by
  simp [join]

/-- A hard line break reads as a place that may be blank. -/
@[simp] theorem reads_hardline {r : Reading} : hardline.Reads r ↔ r = [none] := by simp [hardline]

/-- A space is sound. -/
@[simp] theorem sound_space {deferring : Prop} : space.Sound deferring := by simp [space]

/-- A soft line break is sound. -/
@[simp] theorem sound_softline {deferring : Prop} : softline.Sound deferring := by simp [softline]

/-- A hard line break is sound. -/
@[simp] theorem sound_hardline {deferring : Prop} : hardline.Sound deferring := by simp [hardline]

/-- A literal line break is sound. -/
@[simp] theorem sound_literalline {deferring : Prop} : literalline.Sound deferring := by
  simp [literalline]

/-- A separator between sound documents keeps them sound. -/
theorem soundAll_interleave {deferring : Prop} {separator : Doc} (hs : separator.Sound deferring)
    {ds : List Doc} (hd : SoundAll deferring ds) : SoundAll deferring (interleave separator ds) := by
  refine soundAll_iff.mpr fun d hmem => ?_
  rcases mem_interleave hmem with rfl | hmem
  · exact hs
  · exact soundAll_iff.mp hd d hmem

/-- A text of several lines is sound. -/
@[simp] theorem sound_ofLines {deferring : Prop} {s : String} : (ofLines s).Sound deferring := by
  unfold ofLines
  split
  · rw [if_pos rfl, sound_join]
    refine soundAll_interleave sound_literalline (soundAll_iff.mpr ?_)
    intro d hd
    obtain ⟨l, -, rfl⟩ := List.mem_map.mp hd
    trivial
  · trivial

/-! ## Marking groups -/

mutual

/-- Marking groups keeps a document sound. -/
theorem sound_markBreaks {deferring : Prop} :
    ∀ {d : Doc}, d.Sound deferring → d.markBreaks.Sound deferring
  | .text _, _ => trivial
  | .concat _, h => soundAll_markBreaksAll h
  | .group _ contents, h => sound_markBreaks (d := contents) h
  | .choice states, h => by
    refine ⟨?_, soundAll_markBreaksAll h.2⟩
    cases states with
    | nil => exact absurd rfl h.1
    | cons d ds => simp [markBreaksAll]
  | .indent contents, h => sound_markBreaks (d := contents) h
  | .fill _, h => soundAll_markBreaksAll h
  | .line _, _ => trivial
  | .suffix _, h => h
  | .breakParent, _ => trivial

/-- Marking the groups of sound documents leaves them sound. -/
theorem soundAll_markBreaksAll {deferring : Prop} :
    ∀ {ds : List Doc}, SoundAll deferring ds → SoundAll deferring (markBreaksAll ds)
  | [], _ => trivial
  | _ :: _, h => ⟨sound_markBreaks h.1, soundAll_markBreaksAll h.2⟩

end

end JavaFormat.Doc
