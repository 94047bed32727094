import JavaFormat.Formatter
import JavaFormat.Proofs.Layout.Rule
import JavaFormat.Proofs.Text.Visible

/-!
# Documents keep all leaves and comments

The document of a source has every leaf below the roots in its place and every
comment once, whichever states are picked of its choices. A source has to be well
shaped for that: its trees have the shape that the grammar gives them, there is at
least one root, and the number of a node identifies it.
-/

namespace JavaFormat

/-- A source with roots that the grammar could have given it. -/
structure Parsed.WellShaped (p : Parsed) : Prop where
  roots_ne_nil : p.roots ≠ []
  shaped : ∀ t ∈ p.roots, t.WellShaped
  numbered : ((Tree.nodesOfAll p.roots).map Tree.index).Nodup

/-- The declaration of a package at the beginning of a source, and the comments there. -/
def Parsed.package (source : Source) (comments : List Comment) : Parsed :=
  let declaration := .branch ⟨3, .packageDeclaration, none, source.span 0 10⟩ [
    .leaf ⟨0, .token, none, source.span 0 7⟩ "package",
    .leaf ⟨1, .identifier, none, source.span 8 9⟩ "a",
    .leaf ⟨2, .token, none, source.span 9 10⟩ ";"]
  let whole := .branch ⟨4, .program, none, source.span 0 10⟩ [declaration]
  ⟨whole, [whole], none, comments, source⟩

/-- The source `package a; // b`. -/
def Parsed.remarkedPackage : Parsed :=
  let source := Source.ofText "package a; // b"
  .package source [⟨"// b", true, source.span 11 15⟩]

/-- A package declaration is well shaped. -/
theorem Parsed.wellShaped_package (source : Source) (comments : List Comment) :
    (Parsed.package source comments).WellShaped where
  roots_ne_nil := List.cons_ne_nil _ _
  shaped := by
    have hverbatim : NodeKind.identifier.isVerbatim = true := rfl
    have hprogram : NodeKind.program.isVerbatim = false := rfl
    have hpackage : NodeKind.packageDeclaration.isVerbatim = false := rfl
    simp [package, Tree.Regular, Shape.Allowed, hverbatim, hprogram, hpackage]
  numbered := by simp [package, Tree.nodesOfAll, Tree.nodes, Tree.index, Tree.info]

/-- The texts of the leaves below the roots, in the order of the source. -/
def Parsed.leafTexts (p : Parsed) : List String := p.roots.flatMap Tree.leafTexts

/-- A list that has the elements of `xs` in their order and those of `ys` in between,
each as often as it is there. -/
inductive Interleaves {α : Type} : List α → Multiset α → List α → Prop
  | done : Interleaves [] 0 []
  | left {xs ys zs} (x : α) (h : Interleaves xs ys zs) : Interleaves (x :: xs) ys (x :: zs)
  | right {xs ys zs} (y : α) (h : Interleaves xs ys zs) : Interleaves xs (y ::ₘ ys) (y :: zs)

namespace Layout

open Doc

/-- The glyphs of a comment show what is seen of the comment. -/
theorem visible_of_scripts {c : Comment} {gs : List Glyph} (h : c.doc.Scripts (prompt gs)) :
    visible (readOff gs) = Text.visible c.text := by
  refine c.visible_of_reads ((reads_iff_scripts (sound_comment c).shallow).mpr ⟨_, h, ?_⟩)
  rw [glyphs_prompt]

/-- What is seen of woven glyphs is an interleaving of what is seen of the leaves and of
the comments. -/
theorem Woven.exists_interleaves {ls : List String} {cs : Multiset Remark}
    {gs : List Glyph} (h : Woven ls cs gs) :
    ∃ words, Interleaves (ls.map Text.visible) (cs.map fun a => Text.visible a.comment.text) words ∧
      visible (readOff gs) = words.flatten := by
  induction h with
  | done => exact ⟨[], .done, rfl⟩
  | gap _ ih | stop _ ih =>
    obtain ⟨words, hwords, hseen⟩ := ih
    exact ⟨words, hwords, by rw [readOff_cons, Glyph.reading, visible_none, hseen]⟩
  | blank _ ih =>
    obtain ⟨words, hwords, hseen⟩ := ih
    exact ⟨words, hwords, by rw [readOff_cons, Glyph.reading, visible_blank, hseen]⟩
  | leaf s hspells _ ih =>
    obtain ⟨words, hwords, hseen⟩ := ih
    refine ⟨Text.visible s :: words, .left _ hwords, ?_⟩
    rw [readOff_append, visible_append, hspells.readOff, visible_inked, hseen, List.flatten_cons]
  | comment a ha _ ih =>
    obtain ⟨words, hwords, hseen⟩ := ih
    refine ⟨Text.visible a.comment.text :: words, ?_, ?_⟩
    · rw [Multiset.map_cons]
      exact .right _ hwords
    · rw [readOff_append, visible_append, visible_of_scripts ha, hseen, List.flatten_cons]

variable {p : Parsed} {as : Attachments}

/-- The pieces of the roots are complete. -/
theorem complete_roots (h : p.WellShaped) (hplaced : ∀ a ∈ as, ∃ place, a.Placed p.roots place) :
    ∀ piece ∈ layOutAll (Scene.of p as) p.rootParent p.roots, piece.Complete as.within := by
  have hall : ∀ ts : List Tree, (∀ t ∈ ts, t ∈ p.roots) →
      ∀ piece ∈ layOutAll (Scene.of p as) p.rootParent ts, piece.Complete as.within := by
    intro ts
    induction ts with
    | nil =>
      intro _ piece hpiece
      cases hpiece
    | cons t ts ih =>
      intro hts
      obtain ⟨ht, hts⟩ := List.forall_mem_cons.mp hts
      have hfits := Parsed.fits_of_placed h.numbered hplaced ht
      have hcomplete := complete_layOut (Scene.of p as) p.rootParent t (h.shaped t ht) hfits
      rw [layOutAll]
      exact List.forall_mem_cons.mpr ⟨hcomplete, ih hts⟩
  exact hall p.roots fun t ht => ht

/-- The parts of a fragment are printed with all of their leaves and comments. -/
theorem yields_fragmentDoc (p : Parsed) {share : Tree → Multiset Remark} {ps : List Piece}
    (h : ∀ piece ∈ ps, piece.Complete share) :
    Yields (fragmentDoc p ps) (texts ps) (shares share ps) := by
  refine (yields_members p.source (fragmentGap p.rootParent) h).bind fun d hd => .pure ?_
  exact (Each.cons hd (.single empty_hardline)).cat.congr (by simp) (by simp)

/-- The document of a source has the leaves below the roots and the comments at their nodes. -/
theorem yields_document (h : p.WellShaped) (hplaced : ∀ a ∈ as, ∃ place, a.Placed p.roots place) :
    Yields (document p as) p.leafTexts (p.roots.map as.within).sum := by
  have hcomplete := complete_roots h hplaced
  have hnodes := map_node_layOutAll (Scene.of p as) p.rootParent p.roots
  have htexts : p.leafTexts = texts (layOutAll (Scene.of p as) p.rootParent p.roots) := by
    rw [texts_eq_flatMap, hnodes, Parsed.leafTexts]
  have hshares : (p.roots.map as.within).sum =
      shares as.within (layOutAll (Scene.of p as) p.rootParent p.roots) := by
    rw [shares_eq_sum, hnodes]
  rw [htexts, hshares]
  have hfragment := yields_fragmentDoc p hcomplete
  unfold document
  split
  · rename_i hpieces
    rw [hpieces]
    exact .pure empty_text
  · rename_i piece hpieces
    rw [hpieces] at hcomplete hfragment ⊢
    split
    · refine (hcomplete piece (List.mem_singleton_self piece)).doc.mono fun d hd => ?_
      exact hd.congr (by simp) (by simp)
    · exact hfragment
  · exact hfragment

end Layout

namespace Formatter

open Layout Doc

/-- Laying out is attaching the comments and building the document. -/
theorem layOut_eq_ok_iff {options : Options} {p : Parsed} {d : Doc} : layOut options p = .ok d ↔
    ∃ as, p.attach options.tieBreak = .ok as ∧ Layout.document p as = .ok d := by
  rw [layOut]
  cases hattach : p.attach options.tieBreak with
  | error e => simp [bind, Except.bind]
  | ok as =>
    cases hdocument : Layout.document p as with
    | error e => simp [bind, Except.bind, hdocument, throw, throwThe, MonadExceptOf.throw]
    | ok d => simp [bind, Except.bind, hdocument, pure, Except.pure]

/-- What is laid out is the document with the comments that were attached. -/
theorem document_of_attach {options : Options} {p : Parsed} {as : Attachments} {d : Doc}
    (hattach : p.attach options.tieBreak = .ok as) (h : layOut options p = .ok d) :
    Layout.document p as = .ok d := by
  obtain ⟨as', hattach', hdocument⟩ := layOut_eq_ok_iff.mp h
  rw [hattach] at hattach'
  rwa [Except.ok.inj hattach']

/-- Without comments there is nothing to attach. -/
theorem layOut_eq_ok_iff_of_comments_eq_nil {options : Options} {p : Parsed} {d : Doc}
    (hcomments : p.comments = []) : layOut options p = .ok d ↔ Layout.document p [] = .ok d := by
  have hattach : p.attach options.tieBreak = .ok [] := by
    rw [Parsed.attach, hcomments]
    rfl
  exact ⟨document_of_attach hattach, fun hdocument => layOut_eq_ok_iff.mpr ⟨[], hattach, hdocument⟩⟩

/-- Laying out a source succeeds, with a document made of the leaves below the roots
and all comments, each of them attached. -/
theorem exists_layOut (options : Options) {p : Parsed} (h : p.WellShaped) :
    ∃ as cs d, p.attach options.tieBreak = .ok as ∧ layOut options p = .ok d ∧
      p.Remarked as cs ∧ Weaves d p.leafTexts cs := by
  obtain ⟨as, hattach, hcomments, hplaced⟩ := p.exists_attach options.tieBreak h.roots_ne_nil
  obtain ⟨d, hdocument, hweaves⟩ := yields_document h hplaced
  have hremarked := Parsed.remarked_of_placed h.numbered hcomments hplaced
  refine ⟨as, _, d, hattach, ?_, hremarked, hweaves⟩
  simp only [layOut, hattach, bind, Except.bind, hdocument]
  rfl

/-- Laying out a source without comments succeeds, with a document without remarks. -/
theorem exists_layOut_of_comments_eq_nil (options : Options) {p : Parsed} (h : p.WellShaped)
    (hcomments : p.comments = []) : ∃ d, layOut options p = .ok d ∧ Weaves d p.leafTexts 0 := by
  obtain ⟨as, cs, d, -, hd, hremarked, hweaves⟩ := exists_layOut options h
  have hnone : cs.map Remark.comment = 0 := by
    rw [hremarked.map_comment, hcomments]
    rfl
  obtain rfl : cs = 0 := Multiset.map_eq_zero.mp hnone
  exact ⟨d, hd, hweaves⟩

/-- Nothing is lost and nothing is printed twice: whichever states are picked of the
choices of a document, the characters seen of it are those of the leaves below the
roots, in the order of the source, with those of every comment once in between. -/
theorem layOut_interleaves (options : Options) {p : Parsed} (h : p.WellShaped) :
    ∃ d, layOut options p = .ok d ∧ (∃ r, d.Reads r) ∧ ∀ r, d.Reads r →
      ∃ words, Interleaves (p.leafTexts.map Text.visible)
        (p.comments.map fun c => Text.visible c.text : List (List Char)) words ∧
        visible r = words.flatten := by
  obtain ⟨as, cs, d, -, hd, hremarked, hweaves⟩ := exists_layOut options h
  refine ⟨d, hd, hweaves.sound.exists_reads, fun r hr => ?_⟩
  obtain ⟨gs, hwoven, rfl⟩ := hweaves.exists_woven hr
  have hseen := hwoven.exists_interleaves
  rw [← Multiset.map_coe, ← hremarked.map_comment, Multiset.map_map]
  exact hseen

/-- A comment behind a package declaration is printed, and so is the declaration. -/
theorem layOut_interleaves_remarkedPackage :
    Parsed.remarkedPackage.WellShaped ∧
      ∃ d, layOut {} .remarkedPackage = .ok d ∧ (∃ r, d.Reads r) ∧ ∀ r, d.Reads r →
        ∃ words, Interleaves ["package".toList, ['a'], [';']] {['/', '/', 'b']} words ∧
          visible r = words.flatten :=
  have hshape := Parsed.wellShaped_package _ _
  ⟨hshape, layOut_interleaves {} hshape⟩

end Formatter

end JavaFormat
