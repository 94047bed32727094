import JavaFormat.Proofs.Comments.Siblings
import JavaFormat.Proofs.Layout.PartsTrees
import JavaFormat.Proofs.Layout.Seams

/-!
# Comments between modifiers

In the output, a comment between two modifiers is seen between two modifiers of the same list that
are next to each other. If the list has no annotation these are the same two. Else the comment goes
with the nearest annotation on one side, and keywords may come between.
-/

namespace JavaFormat

/-- In what is seen of a text, the leaves `left` come first, then a comment, and then the leaves
`right`, with nothing in between but some of the comments `cs`. -/
inductive ShownBetween (c : Comment) (cs : List Comment) (left right : List String)
    (out : List Char) : Prop
  | intro {front first inside last back : List Char} {cs₁ cs₂ cs₃ : Multiset Comment}
    (h : Text.seen out = front ++ (first ++ (inside ++ (last ++ back))))
    (hfirst : Mingled (left.flatMap Text.visible) cs₁ first) (hinside : Mingled [] cs₂ inside)
    (hlast : Mingled (right.flatMap Text.visible) cs₃ last) (hc : c ∈ cs₂)
    (hcs : ∀ e ∈ cs₁ + (cs₂ + cs₃), e ∈ cs)

namespace Layout

open Doc

variable {P : Remark → Prop} {a : Remark} {left right : List String} {q : List Cue}

/-- What a document prints between leaves is seen between them in the output, wherever the document
stands. -/
theorem BringsBetween.shownBetween {comments : List Comment} {before after : List Cue}
    (h : BringsBetween P a left right q) (hP : ∀ b, P b → b.comment ∈ comments)
    (hlater : ∀ gs, .later gs ∈ before ++ (q ++ after) → ∃ b, P b ∧ PutOff b gs) {out : List Char}
    (he : Emits [] (settle [] (before ++ (q ++ after))) out.reverse) :
    ShownBetween a.comment comments left right out := by
  obtain ⟨r, s, hr, hs⟩ := exists_backlog
    (fun gs hgs => hlater gs (List.mem_append_left _ hgs)) .empty (by simp [Backlog.empty])
    (q ++ after)
  cases h with
  | @intro cs₁ cs₂ cs₃ q₁ q₂ q₃ h₁ h₂ h₃ hcs =>
    obtain ⟨r₁, bs₁, s₁, hs₁, hm₁⟩ := h₁.exists_settles s (q₂ ++ q₃ ++ after)
    obtain ⟨r₂, bs₂, s₂, hs₂, hm₂, ha⟩ := h₂.exists_settles s₁ (q₃ ++ after)
    obtain ⟨r₃, bs₃, s₃, hs₃, hm₃⟩ := h₃.exists_settles s₂ after
    have hall := hs₁.append (hs₂.append hs₃)
    have hcut : settle [] (before ++ ((q₁ ++ (q₂ ++ q₃)) ++ after)) =
        r ++ ((r₁ ++ (r₂ ++ r₃)) ++ settle s₃.glyphs after) :=
      hr.trans (congrArg (r ++ ·) hall.settle)
    have hseen := seen_of_emits he
    rw [List.reverse_reverse, hcut] at hseen
    simp only [readOff_append, visible_append, List.append_assoc] at hseen
    refine .intro hseen hm₁ hm₂ hm₃ (Multiset.mem_map_of_mem Remark.comment ha) fun e hmem => ?_
    rw [commentsOf, commentsOf, commentsOf, ← Multiset.map_add, ← Multiset.map_add] at hmem
    obtain ⟨b, hb, rfl⟩ := Multiset.mem_map.mp hmem
    exact hP b ((hall.mem_or_mem hb).elim (hs b) (hcs b))

/-- Comments in the order of the source come before a modifier up to the last one that does. -/
theorem mem_takeWhile_comesBefore {as : List AttachedComment} {a : AttachedComment} {t : Tree}
    (hordered : as.Pairwise fun a b => a.comment.span.stop.offset ≤ b.comment.span.start.offset)
    (ha : a ∈ as) (hforward : a.comment.span.start.offset ≤ a.comment.span.stop.offset)
    (hbefore : comesBefore (some t) a = true) : a ∈ as.takeWhile (comesBefore (some t)) := by
  induction as with
  | nil => cases ha
  | cons b bs ih =>
    obtain ⟨hlater, hordered⟩ := List.pairwise_cons.mp hordered
    rcases List.mem_cons.mp ha with rfl | ha
    · rw [List.takeWhile_cons_of_pos hbefore]
      exact List.mem_cons_self
    · have hearlier : comesBefore (some t) b = true := by
        have := hlater a ha
        simp only [comesBefore, Option.all_some, decide_eq_true_eq] at hbefore ⊢
        omega
      rw [List.takeWhile_cons_of_pos hearlier]
      exact List.mem_cons_of_mem b (ih hordered ha)

section Source

variable {p : Parsed} {as : Attachments} {u l r : Tree} {before after : List Tree}

/-- A comment that is put between two modifiers is printed between them in the document of the
source. -/
theorem exists_bringsBetween (h : p.WellShaped)
    (hplaced : ∀ a ∈ as, ∃ place, a.Placed p.roots place) (hu : u ∈ Tree.nodesOfAll p.roots)
    (hkind : u.kind = .modifiers) (hchildren : u.children = before ++ l :: r :: after)
    {a : AttachedComment} (ha : ComesBetween as u l r before a)
    {d : Doc} (hd : document p as = .ok d) {q : List Cue} (hq : d.Scripts q) :
    ∃ front b back bound, q = front ++ (b ++ back) ∧
      BringsBetween (fun b => b.attached ∈ as) ⟨a, bound⟩
        ((before ++ [l]).flatMap Tree.leafTexts) ((r :: after).flatMap Tree.leafTexts) b := by
  have hroots := hu
  rw [Tree.nodesOfAll_eq_flatMap] at hroots
  obtain ⟨root, hroot, hbelow⟩ := List.mem_flatMap.mp hroots
  have hw : u.WellShaped := fun v hv => h.shaped root hroot v (Tree.mem_nodes_trans hbelow hv)
  have hf : as.Fits u := (Parsed.fits_of_placed h.numbered hplaced hroot).of_mem_nodes hbelow
  have hplain : IsPlain u := by
    refine ⟨?_, by simp [hkind], by simp [hkind]⟩
    cases u with
    | leaf info text => simp [Tree.children] at hchildren
    | branch info ts => rfl
  obtain ⟨above, hwithin⟩ := within_document h as hu hplain
  obtain ⟨s, hs⟩ := exists_laidOutAt (Scene.of p as) above u hw hf
  obtain ⟨part, hpart, -⟩ := hs.ready.yields_bare (hs.node ▸ hw u u.mem_nodes_self)
  have hbare : (layOut (Scene.of p as) above u).bare = .ok part := by
    rw [hs.piece]
    exact hpart
  obtain ⟨front, b, back, hb, rfl⟩ := hwithin part hbare d hd q hq
  obtain ⟨bound, hbrings⟩ := bringsBetween_modifiers hw hf hkind hchildren ha hbare hb
  exact ⟨front, b, back, bound, rfl, hbrings⟩

/-- An attached comment is with the comments of its node in its role. -/
theorem mem_inRole_at {a : AttachedComment} (ha : a ∈ as) :
    a ∈ (as.at a.node).inRole a.role := by
  rw [Attachments.inRole_at]
  simp [ha]

/-- A comment that is put between two modifiers comes between them: inside the list, the comments
are in the order of the source. A comment that waits in front of a modifier is behind all those that
the ones before it come before. -/
theorem comes_between (horderly : p.Orderly) (hu : u ∈ Tree.nodesOfAll p.roots)
    (hchildren : u.children = before ++ l :: r :: after)
    (hsorted : p.comments.Pairwise fun a b => a.span.stop.offset ≤ b.span.start.offset)
    (has : as.map AttachedComment.comment = p.comments) {c : Comment} (hc : c ∈ p.comments)
    {place : Placement} (hbetween : Placement.Between c u l r place)
    (ha : place.attach p.source c ∈ as) :
    ComesBetween as u l r before (place.attach p.source c) := by
  have hmem := mem_inRole_at ha
  cases hbetween with
  | inFront => exact .inFront hmem
  | behind => exact .behind hmem
  | inside hnone hl hr =>
    refine .inside fun skipped left hsplit hskipped => ?_
    have hin : Placement.attach p.source c ⟨u, .dangling⟩ ∈ (as.at u.index).dangling := hmem
    have hnonempty := horderly.nonempty c hc
    have hordered : (as.at u.index).dangling.Pairwise fun a b =>
        a.comment.span.stop.offset ≤ b.comment.span.start.offset := by
      rw [← has, List.pairwise_map] at hsorted
      exact hsorted.sublist (as.inRole_at_sublist u.index .dangling)
    rw [hsplit] at hin hordered
    rcases List.mem_append.mp hin with hin | hin
    · obtain ⟨t, ht, hbefore⟩ := hskipped _ hin
      have hchild : t ∈ u.children := by
        rw [hchildren, List.append_cons]
        exact List.mem_append_left _ ht
      have hforward := horderly.forward_of_mem_children hu hchild
      have hbehind := of_decide_eq_true
        ((horderly.forall_sides hu hchildren hl hr).1 t ht)
      have hbefore : c.span.stop.offset ≤ t.span.start.offset := of_decide_eq_true hbefore
      omega
    · exact mem_takeWhile_comesBefore (List.pairwise_append.mp hordered).2.1 hin hnonempty.le hr

end Source

end Layout

namespace Formatter

open Layout Doc

/-- A comment between two modifiers is printed between two modifiers of the list that are next to
each other: between the same ones if no annotation is in the list, and else behind the nearest
annotation in front of it or in front of the nearest one behind it. -/
theorem shown_between_render_layOut (options : Options) {p : Parsed} (h : p.WellShaped)
    (horderly : p.Orderly)
    (hsorted : p.comments.Pairwise fun a b => a.span.stop.offset ≤ b.span.start.offset)
    {u l r : Tree} {before after : List Tree} (hu : u ∈ Tree.nodesOfAll p.roots)
    (hkind : u.kind = .modifiers) (hbody : ∀ t ∈ u.namedChildren, t.kind.isBody = false)
    (hchildren : u.children = before ++ l :: r :: after) {c : Comment} (hc : c ∈ p.comments)
    (hl : c.isBehind l = true) (hr : c.isBefore r = true) :
    ∃ place before' l' r' after' d out, Placement.of? options.tieBreak p c = some place ∧
      u.children = before' ++ l' :: r' :: after' ∧ Placement.Between c u l' r' place ∧
      layOut options p = .ok d ∧ renderDoc options d = .ok out ∧
      ShownBetween c p.comments ((before' ++ [l']).flatMap Tree.leafTexts)
        ((r' :: after').flatMap Tree.leafTexts) out.toList := by
  have hnamed : u.isNamed = true := by simp [Tree.isNamed, hkind]
  obtain ⟨as, cs, d, hattach, hlayOut, hremarked, hweaves⟩ := exists_layOut options h
  obtain ⟨out, q, hrender, hq, he⟩ := exists_settled options hweaves.sound hweaves.shallow
  obtain ⟨a, ha, rfl⟩ := List.mem_map.mp (hremarked.comments ▸ hc)
  obtain ⟨c, -, place, hplace, rfl⟩ := Parsed.exists_of?_of_attach hattach ha
  obtain ⟨before', l', r', after', hsplit, hbetween⟩ :=
    horderly.exists_between h.numbered.of_map hu hnamed hbody hchildren hc hl hr hplace
  have hdocument := document_of_attach hattach hlayOut
  have hwhere := comes_between horderly hu hsplit hsorted hremarked.comments hc hbetween ha
  obtain ⟨front, b, back, bound, rfl, hbrings⟩ :=
    exists_bringsBetween h hremarked.placed hu hkind hsplit hwhere hdocument hq
  refine ⟨place, before', l', r', after', d, out, hplace, hsplit, hbetween, hlayOut, ?_, ?_⟩
  · rw [renderDoc, hrender]
  · refine hbrings.shownBetween (fun e he => ?_) (fun gs hgs => ?_) he
    · rw [← hremarked.comments]
      exact List.mem_map_of_mem he
    · obtain ⟨e, hmem, hput⟩ := (hweaves.stitched _ hq).putOff hgs
      have hattached := Multiset.mem_map_of_mem Remark.attached hmem
      rw [hremarked.attached] at hattached
      exact ⟨e, hattached, hput⟩

/-- An annotation and two keywords. -/
def annotatedModifiers (source : Source) : Tree :=
  .branch ⟨5, .modifiers, none, source.span 0 24⟩ [
    .branch ⟨2, .annotationMarker, none, source.span 0 2⟩ [
      .leaf ⟨0, .token, none, source.span 0 1⟩ "@",
      .leaf ⟨1, .identifier, none, source.span 1 2⟩ "A"],
    .leaf ⟨3, .token, none, source.span 3 9⟩ "public",
    .leaf ⟨4, .token, none, source.span 18 24⟩ "static"]

/-- A field with an annotation, two keywords and a comment between these. -/
def annotatedField : Parsed :=
  let source := Source.ofText "@A public /* c */ static int x;"
  let field := .branch ⟨10, .fieldDeclaration, none, source.span 0 31⟩ [
    annotatedModifiers source,
    .leaf ⟨6, .integralType, none, source.span 25 28⟩ "int",
    .branch ⟨8, .variableDeclarator, none, source.span 29 30⟩ [
      .leaf ⟨7, .identifier, none, source.span 29 30⟩ "x"],
    .leaf ⟨9, .token, none, source.span 30 31⟩ ";"]
  let body := .branch ⟨11, .classBody, none, source.span 0 31⟩ [field]
  ⟨body, [field], some .classBody, [⟨"/* c */", false, source.span 10 17⟩], source⟩

/-- The source with the annotated field is well shaped. -/
theorem wellShaped_annotatedField : annotatedField.WellShaped where
  roots_ne_nil := List.cons_ne_nil _ _
  shaped := by
    have hverbatim : NodeKind.identifier.isVerbatim = true := rfl
    have htype : NodeKind.integralType.isVerbatim = true := rfl
    have hmodifiers : NodeKind.modifiers.isVerbatim = false := rfl
    have hannotation : NodeKind.annotationMarker.isVerbatim = false := rfl
    have hfield : NodeKind.fieldDeclaration.isVerbatim = false := rfl
    have hdeclarator : NodeKind.variableDeclarator.isVerbatim = false := rfl
    simp [annotatedField, annotatedModifiers, Tree.Regular, Shape.Allowed, hverbatim, htype,
      hmodifiers, hannotation, hfield, hdeclarator]
    exact ⟨[_], [], rfl, List.forall_mem_singleton.mpr rfl, .inl rfl⟩
  numbered := by
    simp [annotatedField, annotatedModifiers, Tree.nodesOfAll, Tree.nodes, Tree.index, Tree.info]

/-- The comment is printed behind the annotation, which is named, and not between the keywords. -/
theorem shown_between_render_layOut_annotatedField :
    ∃ c ∈ annotatedField.comments, ∃ d out, layOut {} annotatedField = .ok d ∧
      renderDoc {} d = .ok out ∧
      ShownBetween c annotatedField.comments ["@", "A"] ["public", "static"] out.toList := by
  have hmem : ⟨"/* c */", false, annotatedField.source.span 10 17⟩ ∈ annotatedField.comments :=
    List.mem_singleton_self _
  have hlist : annotatedModifiers annotatedField.source ∈ Tree.nodesOfAll annotatedField.roots := by
    simp [annotatedField, annotatedModifiers, Tree.nodesOfAll, Tree.nodes]
  obtain ⟨place, before, l, r, after, d, out, hplace, hsplit, hbetween, hd, hout, hshown⟩ :=
    shown_between_render_layOut {} wellShaped_annotatedField (by decide)
      (List.pairwise_singleton _ _) hlist rfl (by decide)
      (rfl : _ = [_] ++ _ :: _ :: []) hmem (by decide) (by decide)
  have hchosen : Placement.of? .trailing annotatedField
      ⟨"/* c */", false, annotatedField.source.span 10 17⟩ = some ⟨_, .trailing⟩ := rfl
  obtain rfl := Option.some.inj (hplace.symm.trans hchosen)
  cases hbetween with
  | behind =>
    refine ⟨_, hmem, d, out, hd, hout, ?_⟩
    rcases before with _ | ⟨_, _ | ⟨_, _ | ⟨_, before⟩⟩⟩
    · obtain ⟨-, hrest⟩ := List.cons.inj hsplit
      rw [← hrest] at hshown
      exact hshown
    all_goals simp [annotatedModifiers, Tree.children] at hsplit

end Formatter

end JavaFormat
