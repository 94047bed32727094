import JavaFormat.Layout.Piece
import JavaFormat.Proofs.Layout.Weaving

/-!
# Comments around a document

Each way of printing the comments of a node prints every one of them once: in front
of the node, behind it, on lines of their own inside it, or on one line inside it.
`Weaves.wrap` says what putting the comments of a node around its document adds.
-/

namespace JavaFormat.Layout

open Doc

/-! ## One comment -/

/-- The document of a comment puts nothing off. -/
theorem sound_comment {p : Prop} (c : Comment) : c.doc.Sound p := by
  unfold Comment.doc
  split
  · trivial
  · split
    · split
      · rw [sound_join]
        refine soundAll_interleave sound_hardline (soundAll_iff.mpr ?_)
        intro d hd
        obtain ⟨s, -, rfl⟩ := List.mem_map.mp hd
        trivial
      · exact sound_ofLines
    · trivial

/-- A comment that need not end its line. -/
theorem weaves_comment {a : Remark} (ha : ¬a.EndsLine) : Weaves a.comment.doc [] {a} where
  sound := sound_comment a.comment
  shallow := (sound_comment a.comment).shallow
  stitched q hq := by
    obtain ⟨gs, rfl⟩ := (sound_comment a.comment).exists_prompt hq
    simpa using Stitched.comment a hq (fun h => absurd h ha) .done

/-- A comment awaits a break, whether it has to end its line or not. -/
theorem awaits_comment (a : Remark) : Awaits a.comment.doc [] {a} where
  sound := sound_comment a.comment
  shallow := (sound_comment a.comment).shallow
  stitched q hq := by
    obtain ⟨gs, rfl⟩ := (sound_comment a.comment).exists_prompt hq
    exact .comment a hq (fun _ => ⟨[], rfl⟩) (Woven.stop .done).stitched

/-- A comment with a break behind it. -/
theorem weaves_comment_hardline (a : Remark) :
    Weaves (.concat [a.comment.doc, hardline]) [] {a} :=
  (awaits_comment a).single.close

/-- A line comment that is put off behind a space. -/
theorem weaves_behind {a : Remark} (hline : a.comment.isLine = true) :
    Weaves (suffixed [.text " ", a.comment.doc]) [] {a} := by
  refine weaves_suffixed ⟨trivial, sound_comment a.comment, trivial⟩ ?_
  rintro gs ⟨_, _, rfl, ⟨y, _, hy, rfl, rfl⟩, hsplit⟩
  obtain ⟨hs, rfl⟩ := (sound_comment a.comment).exists_prompt hy
  obtain rfl := (scripts_of_isLine hline).mp hy
  have hgs : gs = .char ' ' :: typed a.comment.text := by
    rw [← glyphs_prompt gs, hsplit]
    simp [typed]
  rw [hgs]
  exact .behind hline

/-- A comment that is put off to lines of its own. -/
theorem weaves_below (a : Remark) {d : Doc} (h : Empty d) :
    Weaves (suffixed [hardline, d, a.comment.doc]) [] {a} := by
  have hblank : d.Sound False := h.sound.mono fun hne => hne rfl
  refine weaves_suffixed ⟨sound_hardline, hblank, sound_comment a.comment, trivial⟩ ?_
  rintro gs ⟨x, _, hx, ⟨y, _, hy, ⟨z, _, hz, rfl, rfl⟩, rfl⟩, hsplit⟩
  obtain ⟨hs, rfl⟩ := (sound_comment a.comment).exists_prompt hz
  obtain rfl := scripts_hardline.mp hx
  have hgs : gs = .stop :: (glyphs y ++ hs) := by
    rw [← glyphs_prompt gs, hsplit]
    simp
  rw [hgs]
  exact .below (h.stitched y hy).woven hz

/-! ## Comments in front of a node -/

/-- A comment in front of a node is printed in its place. -/
theorem weaves_leadingParts (a : AttachedComment) :
    Weaves (.concat a.leadingParts) [] {⟨a, true⟩} := by
  unfold AttachedComment.leadingParts
  split
  · split
    · exact weaves_comment_hardline ⟨a, true⟩
    · exact (weaves_comment_hardline ⟨a, true⟩).concat_append (Each.single empty_hardline).concat
  · rename_i hinline
    have hfree : ¬Remark.EndsLine ⟨a, true⟩ := fun h => hinline h.2.2
    exact (Each.cons (weaves_comment hfree) (.single empty_blank)).concat.congr rfl (by simp)

/-- The comments in front of a node are printed in order. -/
theorem weaves_leadingDoc (c : NodeComments) : Weaves c.leadingDoc [] (remarks c.leading) := by
  refine Weaves.cat ?_
  induction c.leading with
  | nil => exact Each.nil.concat
  | cons a as ih => exact (weaves_leadingParts a).concat_append ih

/-! ## Comments behind a node -/

/-- Parts that print their comment once print all comments of a list once. -/
theorem weavesAll_flatMap {parts : AttachedComment → List Doc} {bound : Bool}
    (hparts : ∀ a, WeavesAll (parts a) [] {⟨a, bound⟩}) (as : List AttachedComment) :
    WeavesAll (as.flatMap parts) [] (remarksOf bound as) := by
  induction as with
  | nil => exact .nil
  | cons a as ih =>
    rw [List.flatMap_cons, remarksOf_cons]
    exact (hparts a).append ih

/-- A comment behind a node is printed in its place. -/
theorem weavesAll_trailingParts (a : AttachedComment) :
    WeavesAll a.trailingParts [] {⟨a, true⟩} := by
  unfold AttachedComment.trailingParts
  split
  · have hblank : Empty (if a.blankLinesBefore = 0 then Doc.text "" else hardline) := by
      split
      · exact empty_text
      · exact empty_hardline
    exact (Each.cons (weaves_below ⟨a, true⟩ hblank) (.single empty_breakParent)).congr rfl
      (by simp)
  · split
    · rename_i hline
      have hbehind : Weaves _ [] {⟨a, true⟩} := weaves_behind hline
      exact (Each.cons hbehind (.single empty_breakParent)).congr rfl (by simp)
    · rename_i hblock
      have hfree : ¬Remark.EndsLine ⟨a, true⟩ := fun h => hblock h.2.1
      exact .skip empty_blank (.single (weaves_comment hfree))

/-- The comments behind a node are printed in order. -/
theorem weaves_trailingDoc (as : List AttachedComment) :
    Weaves (trailingDoc as) [] (remarks as) :=
  (weavesAll_flatMap weavesAll_trailingParts as).cat

/-! ## Comments inside a node -/

/-- Comments on lines of their own, the last of which awaits a break. -/
theorem awaits_danglingParts (a : AttachedComment) (as : List AttachedComment) :
    Awaits (.concat (a.comment.doc :: as.flatMap AttachedComment.danglingParts)) []
      (remarks (a :: as)) := by
  have hfirst := awaits_comment ⟨a, true⟩
  induction as generalizing a with
  | nil => exact hfirst.single
  | cons b bs ih =>
    have hrest := ih b (awaits_comment ⟨b, true⟩)
    have hbreak := (Each.single empty_hardline).concat
    rw [List.flatMap_cons, AttachedComment.danglingParts]
    split
    · exact hfirst.single.close.append_awaits hrest
    · exact hfirst.single.close.append_awaits (hbreak.append_awaits hrest)

/-- The comments inside a node stand on lines of their own, if there are any. -/
theorem each_danglingBlock (c : NodeComments) :
    Each Awaits c.danglingBlock?.toList [] (remarks c.dangling) := by
  unfold NodeComments.danglingBlock?
  cases c.dangling with
  | nil => exact .nil
  | cons a as => exact .single (awaits_danglingParts a as).cat

/-- Comments on one line are printed in order. -/
theorem weaves_inlineParts (as : List AttachedComment) :
    Weaves (.concat (inlineParts as)) [] (remarks as) := by
  induction as with
  | nil => exact Each.nil.concat
  | cons a as ih =>
    rw [inlineParts, remarks, remarksOf_cons]
    split
    · exact (weaves_comment_hardline ⟨a, true⟩).concat_append ih
    · rename_i hblock
      have hfree : ¬Remark.EndsLine ⟨a, true⟩ := fun h => hblock h.2.1
      have hcomment := Each.single (weaves_comment hfree)
      split
      · exact hcomment.concat.concat_append ih
      · exact (hcomment.append (.single empty_blank)).concat.concat_append ih

/-- The comments inside a node are printed in order on one line. -/
theorem weaves_danglingInline (c : NodeComments) :
    Weaves c.danglingInline [] (remarks c.dangling) :=
  (weaves_inlineParts c.dangling).cat

/-! ## Comments around a node -/

/-- A node has no comments if it has none in any role. -/
theorem isEmpty_iff_eq_nil {c : NodeComments} :
    c.isEmpty = true ↔ c.leading = [] ∧ c.trailing = [] ∧ c.dangling = [] := by
  simp [NodeComments.isEmpty, and_assoc]

/-- The comments inside a node that its rule prints. -/
def printedInside (t : Tree) (c : NodeComments) : Multiset Remark :=
  if printsDangling t.kind then c.inside t else 0

/-- The comments inside a node that are printed behind it. -/
def printedBehind (t : Tree) (c : NodeComments) : Multiset Remark :=
  if printsDangling t.kind then 0 else c.inside t

/-- The comments inside a node are printed by its rule or behind it. -/
theorem printedInside_add_printedBehind (t : Tree) (c : NodeComments) :
    printedInside t c + printedBehind t c = c.inside t := by
  unfold printedInside printedBehind
  split <;> simp

/-- The comments inside a node that is no list of modifiers are bound. -/
theorem inside_of_ne_modifiers {t : Tree} (h : t.kind ≠ .modifiers) (c : NodeComments) :
    c.inside t = remarks c.dangling := by
  unfold NodeComments.inside
  split
  · exact absurd ‹_› h
  · rfl

/-- Without comments inside a node there are none in its share. -/
theorem inside_of_dangling_eq_nil (t : Tree) {c : NodeComments} (h : c.dangling = []) :
    c.inside t = 0 := by
  have hattached := c.map_attached_inside t
  rw [h] at hattached
  exact Multiset.map_eq_zero.mp hattached

/-- The comments that a rule leaves are printed behind the node. -/
theorem weavesAll_printedBehind (t : Tree) (c : NodeComments) :
    WeavesAll (if !c.dangling.isEmpty && !printsDangling t.kind then [trailingDoc c.dangling] else [])
      [] (printedBehind t c) := by
  unfold printedBehind
  cases hprints : printsDangling t.kind with
  | true => simpa using Each.nil
  | false =>
    have hkind : t.kind ≠ .modifiers := by
      intro hk
      rw [hk] at hprints
      cases hprints
    rw [inside_of_ne_modifiers hkind]
    cases c.dangling with
    | nil => exact .nil
    | cons a as => exact .single (weaves_trailingDoc (a :: as))

/-- Putting the comments of a node around its document adds those that the rule has
not printed. -/
theorem Weaves.wrap {p : Piece} {d : Doc} {ls : List String} {cs : Multiset Remark}
    (leading : Bool) (h : Weaves d ls (printedInside p.node p.comments + cs)) :
    Weaves (p.wrap leading d) ls
      ((if leading then remarks p.comments.leading else 0) + p.comments.inside p.node +
        remarks p.comments.trailing + cs) := by
  rw [← printedInside_add_printedBehind p.node p.comments]
  unfold Piece.wrap
  split
  · rename_i he
    obtain ⟨hl, ht, hd⟩ := isEmpty_iff_eq_nil.mp he
    refine h.congr rfl ?_
    simp [hl, ht, printedInside, printedBehind, inside_of_dangling_eq_nil _ hd]
  · have hfront : WeavesAll (if leading && !p.comments.leading.isEmpty then
        [p.comments.leadingDoc] else []) []
        (if leading then remarks p.comments.leading else 0) := by
      cases leading with
      | false => exact .nil
      | true =>
        cases hl : p.comments.leading with
        | nil => exact .nil
        | cons a as =>
          have := weaves_leadingDoc p.comments
          rw [hl] at this
          exact .single this
    have hmiddle := weavesAll_printedBehind p.node p.comments
    have hback : WeavesAll (if p.comments.trailing.isEmpty then []
        else [trailingDoc p.comments.trailing]) [] (remarks p.comments.trailing) := by
      cases p.comments.trailing with
      | nil => exact .nil
      | cons a as => exact .single (weaves_trailingDoc (a :: as))
    refine (((hfront.append (.single h)).append hmiddle).append hback).cat.congr (by simp) ?_
    ac_rfl

/-- What is printed for a node with its comments: those in front of it, the node with those
inside it, and those behind it. -/
theorem Weaves.exists_of_wrap {p : Piece} {d : Doc} {ls : List String} {cs : Multiset Remark}
    (h : Weaves d ls (printedInside p.node p.comments + cs)) {q : List Cue}
    (hq : (p.wrap true d).Scripts q) :
    ∃ front own behind, q = front ++ (own ++ behind) ∧ p.comments.leadingDoc.Scripts front ∧
      Stitched ls (p.comments.inside p.node + cs) own ∧
      (trailingDoc p.comments.trailing).Scripts behind := by
  rw [← printedInside_add_printedBehind p.node p.comments]
  unfold Piece.wrap at hq
  split at hq
  · rename_i he
    obtain ⟨hl, ht, hd⟩ := isEmpty_iff_eq_nil.mp he
    refine ⟨[], q, [], by simp, by simp [NodeComments.leadingDoc, hl], ?_,
      by simp [trailingDoc, ht]⟩
    have hbehind : printedBehind p.node p.comments = 0 := by
      simp [printedBehind, inside_of_dangling_eq_nil _ hd]
    rw [hbehind, add_zero]
    exact h.stitched q hq
  · obtain ⟨_, behind, hinner, hbehind, rfl⟩ := scriptsAll_append.mp (scripts_cat.mp hq)
    obtain ⟨_, b, houter, hb, rfl⟩ := scriptsAll_append.mp hinner
    obtain ⟨front, _, hfront, ⟨a, _, ha, rfl, rfl⟩, rfl⟩ := scriptsAll_append.mp houter
    refine ⟨front, a ++ b, behind, by simp, ?_, ?_, ?_⟩
    · cases hl : p.comments.leading with
      | nil => simpa [hl, NodeComments.leadingDoc] using hfront
      | cons => simpa [hl] using hfront
    · have hown := (h.stitched a ha).append
        ((weavesAll_printedBehind p.node p.comments).concat.stitched b hb)
      rwa [List.append_nil, add_right_comm] at hown
    · cases ht : p.comments.trailing with
      | nil => simpa [ht, trailingDoc] using hbehind
      | cons => simpa [ht] using hbehind

end JavaFormat.Layout
