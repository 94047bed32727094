import JavaFormat.Proofs.Doc.Printing
import JavaFormat.Proofs.Layout.Document

/-!
# The output has the tokens of the source

A source without comments is printed as its leaves, each of them character for
character and in the order of the source, with nothing but spaces and line feeds
around them. What makes this hold for every width is that the renderer takes blanks
away only in front of a line feed of its own, and a leaf that ends in a visible
character keeps them from reaching into it.
-/

namespace JavaFormat

/-- Whether a character is one of those that layout puts between leaves. -/
def isSpacing (c : Char) : Prop := c = ' ' ∨ c = '\n'

/-- A text with the given leaves in it, one after the other, and spaces and line feeds
before, between and behind them. -/
inductive Spaced : List String → List Char → Prop
  | done : Spaced [] []
  | gap {ls cs} (c : Char) (hc : isSpacing c) (h : Spaced ls cs) : Spaced ls (c :: cs)
  | leaf {ls cs} (s : String) (h : Spaced ls cs) : Spaced (s :: ls) (s.toList ++ cs)

/-- The characters of a stretch of the output that are no white space. -/
def Text.seen (cs : List Char) : List Char := cs.filter fun c => !isBlank c

/-- What is seen of a text backwards is seen of it backwards. -/
theorem Text.seen_reverse (cs : List Char) : seen cs.reverse = (seen cs).reverse := by
  rw [seen, seen, List.filter_reverse]

/-- What is seen of two texts together. -/
theorem Text.seen_append (cs ds : List Char) : seen (cs ++ ds) = seen cs ++ seen ds :=
  List.filter_append ..

/-- Nothing is seen of white space. -/
theorem Text.seen_eq_nil {cs : List Char} (h : ∀ c ∈ cs, isBlank c = true) : seen cs = [] := by
  rw [seen, List.filter_eq_nil_iff]
  intro c hc
  simp [h c hc]

/-- A text whose last character is no white space. -/
def Text.EndsVisibly (s : String) : Prop := ∃ cs c, s.toList = cs ++ [c] ∧ Text.isBlank c = false

/-- Spaces and line feeds in front of a text. -/
theorem Spaced.gaps {ls : List String} {cs : List Char} (h : Spaced ls cs) {gap : List Char}
    (hgap : ∀ c ∈ gap, isSpacing c) : Spaced ls (gap ++ cs) := by
  induction gap with
  | nil => exact h
  | cons c gap ih =>
    obtain ⟨hc, hgap⟩ := List.forall_mem_cons.mp hgap
    exact .gap c hc (ih hgap)

namespace Layout

open Doc

/-- What the output has been closed with: nothing, or a character that is kept at the end
of a line. -/
def Closed (out : List Char) : Prop := ∀ c ∈ out.head?, Text.isPadding c = false

/-- Output that ends in a visible character is closed. -/
theorem closed_of_visible {out : List Char} (h : ∀ c ∈ out.head?, Text.isBlank c = false) :
    Closed out := by
  intro c hc
  by_contra hpad
  rw [Bool.not_eq_false] at hpad
  have hblank := Text.isBlank_of_isPadding hpad
  rw [h c hc] at hblank
  cases hblank

/-- Padding at the end of the output is part of the gap behind the last leaf. -/
theorem exists_gap_of_padding {pad rest gap closed : List Char}
    (hsplit : pad ++ rest = gap ++ closed) (hpad : ∀ c ∈ pad, Text.isPadding c = true)
    (hclosed : Closed closed) : ∃ gap', gap = pad ++ gap' ∧ rest = gap' ++ closed := by
  induction pad generalizing gap with
  | nil => exact ⟨gap, rfl, hsplit⟩
  | cons c pad ih =>
    obtain ⟨hc, hpad⟩ := List.forall_mem_cons.mp hpad
    cases gap with
    | nil =>
      have hhead : c ∈ closed.head? := by
        have hfirst : closed = c :: (pad ++ rest) := hsplit.symm
        rw [hfirst]
        rfl
      have hkept := hclosed c hhead
      rw [hc] at hkept
      cases hkept
    | cons e gap =>
      obtain ⟨rfl, htail⟩ := List.cons_eq_cons.mp hsplit
      obtain ⟨gap', rfl, hrest⟩ := ih htail hpad
      exact ⟨gap', rfl, hrest⟩

/-- A leaf that ends visibly closes the output. -/
theorem closed_of_endsVisibly {s : String} (h : Text.EndsVisibly s) (out : List Char) :
    Closed (s.toList.reverse ++ out) := by
  obtain ⟨cs, c, hs, hc⟩ := h
  rw [hs, List.reverse_append, List.reverse_singleton]
  refine closed_of_visible fun e he => ?_
  obtain rfl := Option.some.inj he
  exact hc

section Gap

variable {gap closed out : List Char} {gs : List Glyph}

/-- A blank makes a gap longer. -/
theorem behind_blank (h : Emits (gap ++ closed) (.char ' ' :: gs) out)
    (hgap : ∀ c ∈ gap, isSpacing c) :
    (∀ c ∈ ' ' :: gap, isSpacing c) ∧ Emits (' ' :: gap ++ closed) gs out := by
  generalize hbefore : gap ++ closed = before at h
  cases h with
  | char _ h =>
    rw [List.cons_append, hbefore]
    exact ⟨List.forall_mem_cons.mpr ⟨.inl rfl, hgap⟩, h⟩

/-- A break takes the padding at its end from a gap, and makes it longer by a line feed and the
indentation of the next line. -/
theorem exists_behind_stop (h : Emits (gap ++ closed) (.stop :: gs) out)
    (hclosed : Closed closed) (hgap : ∀ c ∈ gap, isSpacing c) :
    ∃ pad gap' width, gap = pad ++ gap' ∧ (∀ c ∈ pad, Text.isPadding c = true) ∧
      (∀ c ∈ List.replicate width ' ' ++ '\n' :: gap', isSpacing c) ∧
      Emits (List.replicate width ' ' ++ '\n' :: gap' ++ closed) gs out := by
  generalize hbefore : gap ++ closed = before at h
  cases h with
  | @stop pad _ _ _ width hpad h =>
    obtain ⟨gap', rfl, rfl⟩ := exists_gap_of_padding hbefore.symm hpad hclosed
    refine ⟨pad, gap', width, rfl, hpad, fun c hc => ?_, ?_⟩
    · rcases List.mem_append.mp hc with hc | hc
      · exact .inl (List.eq_of_mem_replicate hc)
      · rcases List.mem_cons.mp hc with rfl | hc
        · exact .inr rfl
        · exact hgap c (List.mem_append_right _ hc)
    · rw [List.append_assoc, List.cons_append]
      exact h

end Gap

/-- What is printed behind a character that is kept leaves it where it is, and shows what is
seen of the glyphs. -/
theorem exists_behind (gap : List Char) {gs : List Glyph} {closed out : List Char}
    (hclosed : Closed closed) (h : Emits (gap ++ closed) gs out) :
    ∃ more, out = more ++ closed ∧
      Text.seen more = (visible (readOff gs)).reverse ++ Text.seen gap := by
  have hspace : Text.isBlank ' ' = true := by decide
  have hfeed : Text.isBlank '\n' = true := by decide
  induction gs generalizing gap with
  | nil =>
    generalize hbefore : gap ++ closed = before at h
    cases h
    exact ⟨gap, hbefore.symm, rfl⟩
  | cons g gs ih =>
    generalize hbefore : gap ++ closed = before at h
    cases h with
    | char c h =>
      rw [← hbefore] at h
      obtain ⟨more, rfl, hseen⟩ := ih (c :: gap) h
      have hchar : (visible (some c :: readOff gs)).reverse =
          (visible (readOff gs)).reverse ++ Text.seen [c] := by
        cases hc : Text.isBlank c <;> simp [visible, Text.seen, hc]
      refine ⟨more, rfl, ?_⟩
      rw [hseen, readOff_cons, Glyph.reading, hchar, List.append_assoc, ← Text.seen_append]
      rfl
    | glue h =>
      rw [← hbefore] at h
      exact ih gap h
    | blank h =>
      rw [← hbefore] at h
      obtain ⟨more, rfl, hseen⟩ := ih (' ' :: gap) h
      have hblank : Text.seen (' ' :: gap) = Text.seen gap := by simp [Text.seen, hspace]
      exact ⟨more, rfl, by rw [hseen, hblank, readOff_cons, Glyph.reading, visible_none]⟩
    | feed h =>
      rw [← hbefore] at h
      obtain ⟨more, rfl, hseen⟩ := ih ('\n' :: gap) h
      have hnew : Text.seen ('\n' :: gap) = Text.seen gap := by simp [Text.seen, hfeed]
      have hread : visible (some '\n' :: readOff gs) = visible (readOff gs) := by
        simp [visible, hfeed]
      exact ⟨more, rfl, by rw [hseen, hnew, readOff_cons, Glyph.reading, hread]⟩
    | @stop pad out' _ _ width hpad h =>
      obtain ⟨gap', rfl, rfl⟩ := exists_gap_of_padding hbefore.symm hpad hclosed
      have hnew : Text.seen (List.replicate width ' ' ++ ['\n']) = [] := by
        refine Text.seen_eq_nil fun c hc => ?_
        rcases List.mem_append.mp hc with hc | hc
        · rw [List.eq_of_mem_replicate hc, hspace]
        · rw [List.mem_singleton.mp hc, hfeed]
      have hold : Text.seen pad = [] :=
        Text.seen_eq_nil fun c hc => Text.isBlank_of_isPadding (hpad c hc)
      rw [List.append_cons, ← List.append_assoc] at h
      obtain ⟨more, rfl, hseen⟩ := ih _ h
      refine ⟨more, rfl, ?_⟩
      rw [hseen, Text.seen_append, hnew, Text.seen_append, hold, List.nil_append, readOff_cons,
        Glyph.reading, visible_none]

/-- What is printed for woven glyphs behind the last leaf, which a gap follows: the leaves
with spaces and line feeds around them. -/
theorem exists_spaced {ls : List String} {cs : Multiset Remark} {gs : List Glyph}
    {out : List Char} (hw : Woven ls cs gs) (hcs : cs = 0) (hls : ∀ s ∈ ls, Text.EndsVisibly s)
    (gap closed : List Char) (hgap : ∀ c ∈ gap, isSpacing c) (hclosed : Closed closed)
    (he : Emits (gap ++ closed) gs out) :
    ∃ rest, out.reverse = closed.reverse ++ rest ∧ Spaced ls rest := by
  induction hw generalizing gap closed with
  | done =>
    generalize hbefore : gap ++ closed = before at he
    cases he
    have hspaced : Spaced [] (gap.reverse ++ []) :=
      Spaced.done.gaps fun c hc => hgap c (List.mem_reverse.mp hc)
    rw [List.append_nil] at hspaced
    refine ⟨gap.reverse, ?_, hspaced⟩
    rw [← hbefore, List.reverse_append]
  | gap _ ih =>
    generalize hbefore : gap ++ closed = before at he
    cases he with
    | glue he =>
      rw [← hbefore] at he
      exact ih hcs hls gap closed hgap hclosed he
    | blank he =>
      have hmore : ∀ c ∈ ' ' :: gap, isSpacing c := List.forall_mem_cons.mpr ⟨.inl rfl, hgap⟩
      rw [← hbefore] at he
      exact ih hcs hls (' ' :: gap) closed hmore hclosed he
  | stop _ ih =>
    obtain ⟨pad, gap', width, rfl, -, hmore, he⟩ := exists_behind_stop he hclosed hgap
    exact ih hcs hls _ closed hmore hclosed he
  | blank _ ih =>
    obtain ⟨hmore, he⟩ := behind_blank he hgap
    exact ih hcs hls (' ' :: gap) closed hmore hclosed he
  | leaf s hspells _ ih =>
    obtain ⟨hs, hls⟩ := List.forall_mem_cons.mp hls
    have hnext := closed_of_endsVisibly hs (gap ++ closed)
    obtain ⟨rest, hout, hrest⟩ := ih hcs hls [] _ (by simp) hnext (he.of_inked hspells.readOff)
    refine ⟨gap.reverse ++ (s.toList ++ rest), ?_, ?_⟩
    · rw [hout]
      simp
    · exact (Spaced.leaf s hrest).gaps fun c hc => hgap c (List.mem_reverse.mp hc)
  | comment c _ _ _ => exact absurd hcs Multiset.cons_ne_zero

end Layout

namespace Formatter

open Layout Doc

/-- A source without comments is formatted to its leaves, character for character and
in their order, with only spaces and line feeds before, between and behind them, for
every width. -/
theorem spaced_render_layOut (options : Options) {p : Parsed} (h : p.WellShaped)
    (hcomments : p.comments = []) (hleaves : ∀ s ∈ p.leafTexts, Text.EndsVisibly s) :
    ∃ d out, layOut options p = .ok d ∧ renderDoc options d = .ok out ∧
      Spaced p.leafTexts out.toList := by
  obtain ⟨d, hlayOut, hweaves⟩ := exists_layOut_of_comments_eq_nil options h hcomments
  have hsound : d.Sound False := hweaves.sound.mono fun hne => hne rfl
  obtain ⟨out, gs, hrender, hgs, he⟩ := exists_render options hsound
  have hwoven := (hweaves.stitched _ hgs).woven
  rw [glyphs_prompt] at hwoven
  have hclosed : Closed [] := by simp [Closed]
  obtain ⟨rest, hout, hspaced⟩ := exists_spaced hwoven rfl hleaves [] [] (by simp) hclosed he
  refine ⟨d, out, hlayOut, ?_, ?_⟩
  · rw [renderDoc, hrender]
  · rw [List.reverse_reverse] at hout
    rw [hout]
    exact hspaced

/-- A package declaration is printed as its three leaves. -/
theorem spaced_render_layOut_package :
    (Parsed.package (.ofText "package a;") []).WellShaped ∧
      (∀ s ∈ ["package", "a", ";"], Text.EndsVisibly s) ∧
      ∃ d out, layOut {} (.package (.ofText "package a;") []) = .ok d ∧ renderDoc {} d = .ok out ∧
        Spaced ["package", "a", ";"] out.toList := by
  have hshape := Parsed.wellShaped_package (.ofText "package a;") []
  have hleaves : ∀ s ∈ ["package", "a", ";"], Text.EndsVisibly s := by
    simp only [List.forall_mem_cons]
    exact ⟨⟨"packag".toList, 'e', by decide, by decide⟩, ⟨[], 'a', by decide, by decide⟩,
      ⟨[], ';', by decide, by decide⟩, by simp⟩
  exact ⟨hshape, hleaves, spaced_render_layOut {} hshape rfl hleaves⟩

end Formatter

end JavaFormat
