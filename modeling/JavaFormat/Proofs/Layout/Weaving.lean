import JavaFormat.Error
import JavaFormat.Layout.Remark
import JavaFormat.Proofs.Comments.Attachment
import JavaFormat.Proofs.Doc.Script

/-!
# Documents woven from leaves and comments

A layout rule prints the leaves of its node in their order, the comments in places
of its own choice, and between them nothing but spaces and places where a line may
break. `Stitched` says this of one script and `Weaves` of a document, whichever states
are picked of its choices. Comments are counted in a multiset: their order is not
fixed, but each is there as often as it was given. Only comments are put off, and they
are put off once; a line comment that is bound and not put off has a line break behind
it. `Woven` is what is left of this when all is read where it stands.

A document that has no comments in it puts nothing off to the end of a line either.
-/

namespace JavaFormat

/-- Whether nothing else may stand on the line behind a comment. -/
def Remark.EndsLine (a : Remark) : Prop :=
  a.bound = true ∧ a.comment.isLine = true ∧ a.attached.breaksAfter = true

namespace Layout

open Doc

/-- Whether glyphs are those of a text that is printed in one piece, or line by line. -/
def Spells (s : String) (gs : List Glyph) : Prop := gs = typed s ∨ gs = s.toList.map .ofChar

/-- Glyphs made of the leaves `ls` in their order, the comments `cs`, and spaces and
breaks between them. -/
inductive Woven : List String → Multiset Remark → List Glyph → Prop
  | done : Woven [] 0 []
  | gap {ls cs gs} (h : Woven ls cs gs) : Woven ls cs (.gap :: gs)
  | stop {ls cs gs} (h : Woven ls cs gs) : Woven ls cs (.stop :: gs)
  | blank {ls cs gs} (h : Woven ls cs gs) : Woven ls cs (.char ' ' :: gs)
  | leaf {ls cs hs gs} (s : String) (hspells : Spells s hs) (h : Woven ls cs gs) :
    Woven (s :: ls) cs (hs ++ gs)
  | comment {ls cs hs gs} (a : Remark) (ha : a.comment.doc.Scripts (prompt hs))
    (h : Woven ls cs gs) : Woven ls (a ::ₘ cs) (hs ++ gs)

/-- The glyphs of a comment that is put off: a line comment behind a space, or any comment
on lines of its own. -/
inductive PutOff (a : Remark) : List Glyph → Prop
  | behind (hline : a.comment.isLine = true) : PutOff a (.char ' ' :: typed a.comment.text)
  | below {hs gs} (hbreaks : Woven [] 0 hs) (ha : a.comment.doc.Scripts (prompt gs)) :
    PutOff a (.stop :: (hs ++ gs))

/-- A script made of the leaves `ls` in their order, the comments `cs`, some of which are
put off, and spaces and breaks between them. -/
inductive Stitched : List String → Multiset Remark → List Cue → Prop
  | done : Stitched [] 0 []
  | plain {ls₁ ls₂ cs gs q} (hgs : Woven ls₁ 0 gs) (h : Stitched ls₂ cs q) :
    Stitched (ls₁ ++ ls₂) cs (prompt gs ++ q)
  | comment {ls cs gs q} (a : Remark) (ha : a.comment.doc.Scripts (prompt gs))
    (hend : a.EndsLine → ∃ q', q = .now .stop :: q') (h : Stitched ls cs q) :
    Stitched ls (a ::ₘ cs) (prompt gs ++ q)
  | later {ls cs gs q} (a : Remark) (ha : PutOff a gs) (h : Stitched ls cs q) :
    Stitched ls (a ::ₘ cs) (.later gs :: q)

/-- A document with the leaves `ls` and the comments `cs`, whatever is picked of its
choices. -/
structure Weaves (d : Doc) (ls : List String) (cs : Multiset Remark) : Prop where
  sound : d.Sound (cs ≠ 0)
  shallow : d.Shallow
  stitched : ∀ q, d.Scripts q → Stitched ls cs q

/-- A document with the leaves `ls` and the comments `cs`, once a break comes behind it. -/
structure Awaits (d : Doc) (ls : List String) (cs : Multiset Remark) : Prop where
  sound : d.Sound (cs ≠ 0)
  shallow : d.Shallow
  stitched : ∀ q, d.Scripts q → Stitched ls cs (q ++ [.now .stop])

/-- Each of several things has its share of leaves and comments in the sense of `P`;
together these are the leaves `ls` in their order and the comments `cs`. -/
inductive Each {α : Type} (P : α → List String → Multiset Remark → Prop) :
    List α → List String → Multiset Remark → Prop
  | nil : Each P [] [] 0
  | cons {a as ls₁ ls₂ cs₁ cs₂} (ha : P a ls₁ cs₁) (has : Each P as ls₂ cs₂) :
    Each P (a :: as) (ls₁ ++ ls₂) (cs₁ + cs₂)

/-- Documents with the leaves `ls` and the comments `cs` between them. -/
abbrev WeavesAll : List Doc → List String → Multiset Remark → Prop := Each Weaves

/-- A document that adds neither a leaf nor a comment. -/
abbrev Empty (d : Doc) : Prop := Weaves d [] 0

/-- Woven glyphs stand one after the other. -/
theorem Woven.append {ls₁ ls₂ : List String} {cs₁ cs₂ : Multiset Remark}
    {gs₁ gs₂ : List Glyph} (h₁ : Woven ls₁ cs₁ gs₁) (h₂ : Woven ls₂ cs₂ gs₂) :
    Woven (ls₁ ++ ls₂) (cs₁ + cs₂) (gs₁ ++ gs₂) := by
  induction h₁ with
  | done => simpa using h₂
  | gap _ ih => exact .gap ih
  | stop _ ih => exact .stop ih
  | blank _ ih => exact .blank ih
  | leaf s hspells _ ih =>
    rw [List.append_assoc]
    exact .leaf s hspells ih
  | comment a ha _ ih =>
    rw [List.append_assoc, Multiset.cons_add]
    exact .comment a ha ih

/-- Stitched scripts stand one after the other. -/
theorem Stitched.append {ls₁ ls₂ : List String} {cs₁ cs₂ : Multiset Remark}
    {q₁ q₂ : List Cue} (h₁ : Stitched ls₁ cs₁ q₁) (h₂ : Stitched ls₂ cs₂ q₂) :
    Stitched (ls₁ ++ ls₂) (cs₁ + cs₂) (q₁ ++ q₂) := by
  induction h₁ with
  | done => simpa using h₂
  | plain hgs _ ih =>
    rw [List.append_assoc, List.append_assoc]
    exact .plain hgs ih
  | comment a ha hend _ ih =>
    rw [List.append_assoc, Multiset.cons_add]
    refine .comment a ha (fun hline => ?_) ih
    obtain ⟨q', rfl⟩ := hend hline
    exact ⟨q' ++ q₂, rfl⟩
  | later a ha _ ih =>
    rw [Multiset.cons_add]
    exact .later a ha ih

/-- Leaves with spaces and breaks between them. -/
theorem Woven.stitched {ls : List String} {gs : List Glyph} (h : Woven ls 0 gs) :
    Stitched ls 0 (prompt gs) := by
  simpa using Stitched.plain h .done

/-- A text is read as it is, however it is printed. -/
theorem Spells.readOff {s : String} {gs : List Glyph} (h : Spells s gs) :
    Doc.readOff gs = inked s := by
  rcases h with rfl | rfl
  · exact readOff_typed s
  · exact readOff_map_of_forall Glyph.reading_ofChar _

/-- A line comment is printed in one piece. -/
theorem scripts_of_isLine {c : Comment} (hc : c.isLine = true) {gs : List Glyph} :
    c.doc.Scripts (prompt gs) ↔ gs = typed c.text := by
  rw [Comment.doc, if_pos hc]
  exact prompt_inj

/-- What is put off is a comment. -/
theorem PutOff.woven {a : Remark} {gs : List Glyph} (h : PutOff a gs) :
    Woven [] {a} gs := by
  cases h with
  | behind hline =>
    refine .blank ?_
    simpa using Woven.comment a ((scripts_of_isLine hline).mpr rfl) .done
  | below hbreaks ha =>
    have hcomment := hbreaks.append (.comment a ha .done)
    exact .stop (by simpa using hcomment)

/-- A stitched script has woven glyphs. -/
theorem Stitched.woven {ls : List String} {cs : Multiset Remark} {q : List Cue}
    (h : Stitched ls cs q) : Woven ls cs (glyphs q) := by
  induction h with
  | done => exact .done
  | plain hgs _ ih =>
    rw [glyphs_append, glyphs_prompt]
    simpa using hgs.append ih
  | comment a ha _ _ ih =>
    rw [glyphs_append, glyphs_prompt]
    exact .comment a ha ih
  | later a ha _ ih =>
    rw [glyphs_later, ← Multiset.singleton_add]
    exact ha.woven.append ih

/-- Whatever is read off a document is woven from its leaves and comments. -/
theorem Weaves.exists_woven {d : Doc} {ls : List String} {cs : Multiset Remark}
    (h : Weaves d ls cs) {r : Reading} (hr : d.Reads r) :
    ∃ gs, Woven ls cs gs ∧ Doc.readOff gs = r := by
  obtain ⟨q, hq, rfl⟩ := (reads_iff_scripts h.shallow).mp hr
  exact ⟨glyphs q, (h.stitched q hq).woven, rfl⟩

section Each

variable {α : Type} {P Q : α → List String → Multiset Remark → Prop} {a : α} {as bs : List α}
  {ls ls₁ ls₂ : List String} {cs cs₁ cs₂ : Multiset Remark}

/-- The leaves and comments of several things may be written in another way. -/
theorem Each.congr (h : Each P as ls₁ cs₁) (hl : ls₁ = ls₂) (hc : cs₁ = cs₂) :
    Each P as ls₂ cs₂ := by
  subst hl hc
  exact h

/-- What each of several things does it does in a weaker sense as well. -/
theorem Each.mono (h : Each P as ls cs) (hPQ : ∀ {a ls cs}, P a ls cs → Q a ls cs) :
    Each Q as ls cs := by
  induction h with
  | nil => exact .nil
  | cons ha _ ih => exact .cons (hPQ ha) ih

/-- Two lists have their leaves one list after the other, and the comments of both. -/
theorem Each.append (h₁ : Each P as ls₁ cs₁) (h₂ : Each P bs ls₂ cs₂) :
    Each P (as ++ bs) (ls₁ ++ ls₂) (cs₁ + cs₂) := by
  induction h₁ with
  | nil => simpa using h₂
  | cons ha _ ih => exact (Each.cons ha ih).congr (List.append_assoc ..).symm (add_assoc ..).symm

/-- Nothing has no share. -/
theorem Each.nil_iff : Each P [] ls cs ↔ ls = [] ∧ cs = 0 := by
  constructor
  · intro h
    cases h
    exact ⟨rfl, rfl⟩
  · rintro ⟨rfl, rfl⟩
    exact .nil

/-- The shares of two lists can be told apart. -/
theorem Each.of_append (h : Each P (as ++ bs) ls cs) :
    ∃ ls₁ ls₂ cs₁ cs₂, Each P as ls₁ cs₁ ∧ Each P bs ls₂ cs₂ ∧ ls = ls₁ ++ ls₂ ∧
      cs = cs₁ + cs₂ := by
  induction as generalizing ls cs with
  | nil => exact ⟨[], ls, 0, cs, .nil, h, rfl, (zero_add cs).symm⟩
  | cons a as ih =>
    cases h with
    | @cons _ _ ls₀ _ cs₀ _ ha has =>
      obtain ⟨ls₁, ls₂, cs₁, cs₂, h₁, h₂, rfl, rfl⟩ := ih has
      exact ⟨ls₀ ++ ls₁, ls₂, cs₀ + cs₁, cs₂, .cons ha h₁, h₂, (List.append_assoc ..).symm,
        (add_assoc ..).symm⟩

/-- One thing has its own leaves and comments. -/
theorem Each.single (h : P a ls cs) : Each P [a] ls cs :=
  (Each.cons h .nil).congr (by simp) (by simp)

end Each

section Weaving

variable {d e : Doc} {ds es : List Doc} {ls ls₁ ls₂ : List String}
  {cs cs₁ cs₂ : Multiset Remark}

/-! ## Documents one after the other -/

/-- Where there are some comments, there are some together with any others. -/
theorem add_ne_zero_of_left (h : cs₁ ≠ 0) : cs₁ + cs₂ ≠ 0 := by
  intro hz
  have hcard := congrArg Multiset.card hz
  rw [Multiset.card_add, Multiset.card_zero] at hcard
  exact h (Multiset.card_eq_zero.mp (by omega))

/-- Two lists of documents are sound with the comments of both. -/
theorem soundAll_append_add (h₁ : SoundAll (cs₁ ≠ 0) ds) (h₂ : SoundAll (cs₂ ≠ 0) es) :
    SoundAll (cs₁ + cs₂ ≠ 0) (ds ++ es) := by
  refine soundAll_append.mpr ⟨h₁.mono add_ne_zero_of_left, h₂.mono ?_⟩
  rw [add_comm]
  exact add_ne_zero_of_left

/-- The leaves and comments of a document may be written in another way. -/
theorem Weaves.congr (h : Weaves d ls₁ cs₁) (hl : ls₁ = ls₂) (hc : cs₁ = cs₂) :
    Weaves d ls₂ cs₂ := by
  subst hl hc
  exact h

/-- A document between others that adds neither a leaf nor a comment. -/
theorem Each.skip (h₁ : Empty d) (h₂ : WeavesAll ds ls cs) : WeavesAll (d :: ds) ls cs :=
  (Each.cons h₁ h₂).congr (by simp) (by simp)

/-- Two lists of documents stand one after the other. -/
theorem Weaves.concat_append (h₁ : Weaves (.concat ds) ls₁ cs₁) (h₂ : Weaves (.concat es) ls₂ cs₂) :
    Weaves (.concat (ds ++ es)) (ls₁ ++ ls₂) (cs₁ + cs₂) where
  sound := soundAll_append_add h₁.sound h₂.sound
  shallow := shallowAll_append.mpr ⟨h₁.shallow, h₂.shallow⟩
  stitched q hq := by
    obtain ⟨a, b, ha, hb, rfl⟩ := scriptsAll_append.mp hq
    exact (h₁.stitched a ha).append (h₂.stitched b hb)

/-- Joined documents have the leaves and comments of the list of them. -/
theorem Weaves.cat (h : Weaves (.concat ds) ls cs) : Weaves (cat ds) ls cs where
  sound := sound_cat.mpr h.sound
  shallow := shallow_cat.mpr h.shallow
  stitched q hq := h.stitched q (scripts_cat.mp hq)

/-- Documents with their shares stand one after the other. -/
theorem Each.concat (h : WeavesAll ds ls cs) : Weaves (.concat ds) ls cs := by
  induction h with
  | nil =>
    refine ⟨trivial, trivial, ?_⟩
    rintro q rfl
    exact .done
  | @cons d ds ls₁ _ cs₁ _ hd _ ih =>
    have hone : Weaves (.concat [d]) ls₁ cs₁ := by
      refine ⟨⟨hd.sound, trivial⟩, ⟨hd.shallow, trivial⟩, ?_⟩
      rintro q ⟨a, _, ha, rfl, rfl⟩
      rw [List.append_nil]
      exact hd.stitched a ha
    exact hone.concat_append ih

/-- Joined documents have the leaves and comments that each of them has. -/
theorem Each.cat (h : WeavesAll ds ls cs) : Weaves (cat ds) ls cs := h.concat.cat

/-- A group of documents has the leaves and comments that each of them has. -/
theorem Each.grouped (h : WeavesAll ds ls cs) : Weaves (grouped ds) ls cs where
  sound := sound_grouped.mpr h.concat.sound
  shallow := shallow_grouped.mpr h.concat.shallow
  stitched q hq := h.concat.stitched q (scripts_grouped.mp hq)

/-- Indented documents have the leaves and comments that each of them has. -/
theorem Each.indented (h : WeavesAll ds ls cs) : Weaves (indented ds) ls cs where
  sound := sound_indented.mpr h.concat.sound
  shallow := shallow_indented.mpr h.concat.shallow
  stitched q hq := h.concat.stitched q (scripts_indented.mp hq)

/-- A fill has the leaves and comments that each of its parts has. -/
theorem Each.fill (h : WeavesAll ds ls cs) : Weaves (.fill ds) ls cs :=
  ⟨h.concat.sound, h.concat.shallow, h.concat.stitched⟩

/-- A comment is put off to the end of a line. -/
theorem weaves_suffixed {a : Remark} (hds : SoundAll False ds)
    (h : ∀ gs, ScriptsAll ds (prompt gs) → PutOff a gs) : Weaves (suffixed ds) [] {a} where
  sound := sound_suffixed.mpr ⟨Multiset.singleton_ne_zero a, hds.mono False.elim⟩
  shallow := shallow_suffixed.mpr hds
  stitched q hq := by
    obtain ⟨gs, hgs, rfl⟩ := scripts_suffixed.mp hq
    simpa using Stitched.later a (h gs hgs) .done

/-- Two states of a choice that have the same leaves and comments. -/
theorem Weaves.choice (h₁ : Weaves d ls cs) (h₂ : Weaves e ls cs) :
    Weaves (.choice [d, e]) ls cs where
  sound := ⟨by simp, h₁.sound, h₂.sound, trivial⟩
  shallow := ⟨h₁.shallow, h₂.shallow, trivial⟩
  stitched q hq := by
    rcases hq with hq | hq | hq
    · exact h₁.stitched q hq
    · exact h₂.stitched q hq
    · exact hq.elim

/-! ## What stands between leaves and comments -/

/-- The empty text has no leaf and no comment. -/
theorem empty_text : Empty (.text "") := ⟨trivial, trivial, by rintro q rfl; exact .done⟩

/-- A blank has no leaf and no comment. -/
theorem empty_blank : Empty (.text " ") :=
  ⟨trivial, trivial, by rintro q rfl; exact (Woven.blank .done).stitched⟩

/-- A forced break has no leaf and no comment. -/
theorem empty_breakParent : Empty .breakParent := ⟨trivial, trivial, by rintro q rfl; exact .done⟩

/-- A space has no leaf and no comment. -/
theorem empty_space : Empty space where
  sound := sound_space
  shallow := sound_space.shallow
  stitched q hq := by
    rcases scripts_space.mp hq with rfl | rfl
    · exact (Woven.stop .done).stitched
    · exact (Woven.gap .done).stitched

/-- A soft line break has no leaf and no comment. -/
theorem empty_softline : Empty softline where
  sound := sound_softline
  shallow := sound_softline.shallow
  stitched q hq := by
    rcases scripts_softline.mp hq with rfl | rfl
    · exact (Woven.stop .done).stitched
    · exact (Woven.gap .done).stitched

/-- A hard line break has no leaf and no comment. -/
theorem empty_hardline : Empty hardline where
  sound := sound_hardline
  shallow := sound_hardline.shallow
  stitched q hq := by
    rw [scripts_hardline.mp hq]
    exact (Woven.stop .done).stitched

/-! ## Documents that await a break -/

/-- A document that has its leaves and comments has them once a break follows. -/
theorem Weaves.awaits (h : Weaves d ls cs) : Awaits d ls cs where
  sound := h.sound
  shallow := h.shallow
  stitched q hq := by simpa using (h.stitched q hq).append (Woven.stop .done).stitched

/-- Joined documents have their leaves and comments once a break follows. -/
theorem Awaits.cat (h : Awaits (.concat ds) ls cs) : Awaits (cat ds) ls cs where
  sound := sound_cat.mpr h.sound
  shallow := shallow_cat.mpr h.shallow
  stitched q hq := h.stitched q (scripts_cat.mp hq)

/-- Indented documents have their leaves and comments once a break follows. -/
theorem Awaits.indented (h : Awaits (.concat ds) ls cs) : Awaits (indented ds) ls cs where
  sound := sound_indented.mpr h.sound
  shallow := shallow_indented.mpr h.shallow
  stitched q hq := h.stitched q (scripts_indented.mp hq)

/-- One document has its leaves and comments once a break follows. -/
theorem Awaits.single (h : Awaits d ls cs) : Awaits (.concat [d]) ls cs where
  sound := ⟨h.sound, trivial⟩
  shallow := ⟨h.shallow, trivial⟩
  stitched := by
    rintro q ⟨a, _, ha, rfl, rfl⟩
    rw [List.append_nil]
    exact h.stitched a ha

/-- The break that a document awaits comes behind it. -/
theorem Awaits.close (h : Awaits (.concat ds) ls cs) :
    Weaves (.concat (ds ++ [hardline])) ls cs where
  sound := soundAll_append.mpr ⟨h.sound, sound_hardline, trivial⟩
  shallow := shallowAll_append.mpr ⟨h.shallow, sound_hardline.shallow, trivial⟩
  stitched q hq := by
    obtain ⟨a, _, ha, ⟨b, _, hb, rfl, rfl⟩, rfl⟩ := scriptsAll_append.mp hq
    rw [scripts_hardline.mp hb]
    exact h.stitched a ha

/-- The last documents of a list await a break. -/
theorem Weaves.append_awaits (h₁ : Weaves (.concat ds) ls₁ cs₁) (h₂ : Awaits (.concat es) ls₂ cs₂) :
    Awaits (.concat (ds ++ es)) (ls₁ ++ ls₂) (cs₁ + cs₂) where
  sound := soundAll_append_add h₁.sound h₂.sound
  shallow := shallowAll_append.mpr ⟨h₁.shallow, h₂.shallow⟩
  stitched q hq := by
    obtain ⟨a, b, ha, hb, rfl⟩ := scriptsAll_append.mp hq
    rw [List.append_assoc]
    exact (h₁.stitched a ha).append (h₂.stitched b hb)

/-- Documents with breaks between them, each of which awaits one. -/
theorem Each.join_awaits (h : Each Awaits ds ls cs) : Awaits (join hardline ds) ls cs := by
  refine Awaits.cat ?_
  induction h with
  | nil => exact Each.nil.concat.awaits
  | @cons d ds _ _ _ _ hd hds ih =>
    cases ds with
    | nil =>
      obtain ⟨rfl, rfl⟩ := Each.nil_iff.mp hds
      simpa [interleave] using hd.single
    | cons e es => exact hd.single.close.append_awaits ih

/-! ## Lists of documents -/

/-- Documents with nothing but spaces and breaks between them. -/
theorem Each.interleave (he : Empty e) (h : WeavesAll ds ls cs) :
    WeavesAll (interleave e ds) ls cs := by
  induction h with
  | nil => exact .nil
  | @cons d ds _ _ _ _ hd hds ih =>
    cases ds with
    | nil => exact .cons hd hds
    | cons f fs => exact .cons hd (.skip he ih)

/-- Documents joined with a separator that has no leaf have the leaves and comments of each. -/
theorem Each.join (he : Empty e) (h : WeavesAll ds ls cs) : Weaves (join e ds) ls cs :=
  (h.interleave he).cat

/-- Documents that are each changed without adding a leaf or a comment. -/
theorem Each.map {f : Doc → Doc} (hf : ∀ {d ls cs}, Weaves d ls cs → Weaves (f d) ls cs)
    (h : WeavesAll ds ls cs) : WeavesAll (ds.map f) ls cs := by
  induction h with
  | nil => exact .nil
  | cons hd _ ih => exact .cons (hf hd) ih

/-! ## Leaves -/

/-- A text that is made of leaves. -/
theorem weaves_typed {s : String} (h : Woven ls 0 (typed s)) : Weaves (.text s) ls 0 where
  sound := trivial
  shallow := trivial
  stitched := by
    rintro q rfl
    exact h.stitched

/-- A text is a leaf. -/
theorem weaves_text (s : String) : Weaves (.text s) [s] 0 :=
  weaves_typed (by simpa using Woven.leaf s (.inl rfl) .done)

/-- A leaf is printed as it is, line by line. -/
theorem weaves_ofLines (s : String) : Weaves (ofLines s) [s] 0 where
  sound := sound_ofLines
  shallow := sound_ofLines.shallow
  stitched q hq := by
    rw [scripts_ofLines.mp hq]
    simpa using (Woven.leaf s (.inr rfl) .done).stitched

/-- Two leaves in one text. -/
theorem weaves_text_append (s t : String) : Weaves (.text (s ++ t)) [s, t] 0 := by
  refine weaves_typed ?_
  rw [typed_append]
  simpa using Woven.leaf s (.inl rfl) (.leaf t (.inl rfl) .done)

/-- A leaf with a space behind it in one text. -/
theorem weaves_text_blank (s : String) : Weaves (.text (s ++ " ")) [s] 0 := by
  refine weaves_typed ?_
  rw [typed_append]
  exact .leaf s (.inl rfl) (.blank .done)

end Weaving

/-! ## Layout that succeeds -/

/-- A computation that succeeds with a result of which `P` holds. -/
def Succeeds {α : Type} (e : Except ShapeError α) (P : α → Prop) : Prop := ∃ a, e = .ok a ∧ P a

/-- A document is laid out, with the leaves `ls` and the comments `cs`. -/
abbrev Yields (e : Except ShapeError Doc) (ls : List String) (cs : Multiset Remark) :
    Prop :=
  Succeeds e (Weaves · ls cs)

/-- Documents are laid out, with the leaves `ls` and the comments `cs`. -/
abbrev YieldsAll (e : Except ShapeError (List Doc)) (ls : List String)
    (cs : Multiset Remark) : Prop :=
  Succeeds e (WeavesAll · ls cs)

/-- A result that is given succeeds with what holds of it. -/
theorem Succeeds.pure {α : Type} {a : α} {P : α → Prop} (h : P a) :
    Succeeds (Pure.pure a) P := ⟨a, rfl, h⟩

/-- What succeeds does so in a weaker sense as well. -/
theorem Succeeds.mono {α : Type} {e : Except ShapeError α} {P Q : α → Prop} (h : Succeeds e P)
    (hPQ : ∀ a, P a → Q a) : Succeeds e Q := by
  obtain ⟨a, ha, hP⟩ := h
  exact ⟨a, ha, hPQ a hP⟩

/-- A computation that goes on with the result of one that succeeds. -/
theorem Succeeds.bind {α β : Type} {e : Except ShapeError α} {f : α → Except ShapeError β}
    {P : α → Prop} {Q : β → Prop} (h : Succeeds e P) (hf : ∀ a, P a → Succeeds (f a) Q) :
    Succeeds (e >>= f) Q := by
  obtain ⟨a, rfl, ha⟩ := h
  exact hf a ha

/-- What holds of a result is carried over to its image. -/
theorem Succeeds.map {α β : Type} {e : Except ShapeError α} {f : α → β} {P : α → Prop}
    {Q : β → Prop} (h : Succeeds e P) (hf : ∀ a, P a → Q (f a)) : Succeeds (e.map f) Q := by
  obtain ⟨a, rfl, ha⟩ := h
  exact ⟨_, rfl, hf a ha⟩

end Layout

end JavaFormat
