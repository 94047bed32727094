import JavaFormat.Proofs.Layout.Mingling
import JavaFormat.Proofs.Layout.Rule

/-!
# What is printed between two modifiers

Between two modifiers of a list stand the comments behind the first one, those inside the list
that come here, and the comments in front of the second one (`Seam`). Those that have to end their
line are put off, but then a break is in front of the second modifier. So each of them is printed
between the two, wherever the list stands (`bringsBetween_modifiers`).
-/

namespace JavaFormat.Layout

open Doc

/-! ## What is not put off -/

section Prompt

variable {a : AttachedComment} {as : List AttachedComment} {q : List Cue}

/-- What is made of sound parts for each comment is sound. -/
theorem soundAll_flatMap {parts : AttachedComment → List Doc}
    (h : ∀ a ∈ as, SoundAll False (parts a)) : SoundAll False (as.flatMap parts) := by
  refine soundAll_iff.mpr fun d hd => ?_
  obtain ⟨a, ha, hd⟩ := List.mem_flatMap.mp hd
  exact soundAll_iff.mp (h a ha) d hd

/-- A comment in front of a node is printed by sound documents. -/
theorem soundAll_leadingParts (a : AttachedComment) : SoundAll False a.leadingParts := by
  have hcomment : a.comment.doc.Sound False := sound_comment a.comment
  unfold AttachedComment.leadingParts
  split
  · split
    · exact ⟨hcomment, sound_hardline, trivial⟩
    · exact ⟨hcomment, sound_hardline, sound_hardline, trivial⟩
  · exact ⟨hcomment, trivial, trivial⟩

/-- A comment behind a node is put off only if it has to end its line. -/
theorem soundAll_trailingParts (ha : (a.comment.isLine || a.ownLine) = false) :
    SoundAll False a.trailingParts := by
  obtain ⟨hline, hown⟩ := Bool.or_eq_false_iff.mp ha
  rw [AttachedComment.trailingParts, hline, hown]
  exact ⟨trivial, sound_comment a.comment, trivial⟩

/-- A comment between modifiers is printed by sound documents. -/
theorem soundAll_modifierComment (a : AttachedComment) : SoundAll False (modifierComment a) :=
  ⟨trivial, sound_comment a.comment, trivial⟩

/-- Comments that are not put off are printed where they stand. -/
theorem exists_woven_of_sound {d : Doc} {cs : Multiset Remark} (hd : d.Sound False)
    (h : Weaves d [] cs) (hq : d.Scripts q) : ∃ gs, q = prompt gs ∧ Woven [] cs gs := by
  obtain ⟨gs, rfl⟩ := hd.exists_prompt hq
  have hwoven := (h.stitched _ hq).woven
  rw [glyphs_prompt] at hwoven
  exact ⟨gs, rfl, hwoven⟩

/-- The comments in front of a node are printed where they stand. -/
theorem woven_leadingDoc (c : NodeComments) (hq : c.leadingDoc.Scripts q) :
    ∃ gs, q = prompt gs ∧ Woven [] (remarks c.leading) gs :=
  exists_woven_of_sound (sound_cat.mpr (soundAll_flatMap fun a _ => soundAll_leadingParts a))
    (weaves_leadingDoc c) hq

/-- The comments behind a node are printed where they stand, unless one has to end its line. -/
theorem woven_trailingDoc {c : NodeComments} (hc : c.hasBreakingTrailing = false)
    (hq : (trailingDoc c.trailing).Scripts q) :
    ∃ gs, q = prompt gs ∧ Woven [] (remarks c.trailing) gs := by
  have hinline : ∀ a ∈ c.trailing, (a.comment.isLine || a.ownLine) = false := by
    simpa [NodeComments.hasBreakingTrailing] using hc
  exact exists_woven_of_sound
    (sound_cat.mpr (soundAll_flatMap fun a ha => soundAll_trailingParts (hinline a ha)))
    (weaves_trailingDoc c.trailing) hq

/-- The comments behind a modifier are printed where they stand. -/
theorem woven_modifierComments (hq : ScriptsAll (as.flatMap modifierComment) q) :
    ∃ gs, q = prompt gs ∧ Woven [] (remarksOf false as) gs :=
  exists_woven_of_sound (d := .concat _) (soundAll_flatMap fun a _ => soundAll_modifierComment a)
    (weavesAll_flatMap weavesAll_modifierComment as).concat hq

end Prompt

/-! ## Between two modifiers -/

/-- What is printed between two modifiers: the comments behind the first, those inside the list
that come here, a blank or a break, and the comments in front of the second. -/
structure Seam (owner : Option NodeKind) (p next : Piece) (printed : List AttachedComment)
    (behind middle gap front : List Cue) : Prop where
  behind : (trailingDoc p.comments.trailing).Scripts behind
  middle : ScriptsAll (printed.flatMap modifierComment) middle
  gap : ScriptsAll (modifierBreak owner p printed (some next.node)) gap
  front : next.comments.leadingDoc.Scripts front

namespace Seam

variable {owner : Option NodeKind} {p next : Piece} {printed : List AttachedComment}
  {behind middle gap front : List Cue} {a : AttachedComment}

/-- What stands behind a modifier is stitched of its trailing comments. -/
theorem stitched_behind (h : Seam owner p next printed behind middle gap front) :
    Stitched [] (remarks p.comments.trailing) behind :=
  (weaves_trailingDoc p.comments.trailing).stitched behind h.behind

/-- What stands in the middle of a seam is stitched of the comments that are printed there. -/
theorem stitched_middle (h : Seam owner p next printed behind middle gap front) :
    Stitched [] (remarksOf false printed) middle :=
  (weavesAll_flatMap weavesAll_modifierComment printed).concat.stitched middle h.middle

/-- The gap of a seam is stitched of no comments. -/
theorem stitched_gap (h : Seam owner p next printed behind middle gap front) :
    Stitched [] 0 gap :=
  (weavesAll_modifierBreak owner p printed (some next.node)).concat.stitched gap h.gap

/-- What stands in front of the next modifier is stitched of its leading comments. -/
theorem stitched_front (h : Seam owner p next printed behind middle gap front) :
    Stitched [] (remarks next.comments.leading) front :=
  (weaves_leadingDoc next.comments).stitched front h.front

/-- The comments that are printed between two modifiers. -/
abbrev comments (p next : Piece) (printed : List AttachedComment) : Multiset Remark :=
  remarks p.comments.trailing + (remarksOf false printed + remarks next.comments.leading)

/-- A comment in front of the second modifier is printed in front of it. -/
theorem brings_leading (h : Seam owner p next printed behind middle gap front)
    (ha : a ∈ next.comments.leading) :
    Brings ⟨a, true⟩ (comments p next printed) (behind ++ (middle ++ (gap ++ front))) := by
  obtain ⟨gs, rfl, hgs⟩ := woven_leadingDoc next.comments h.front
  have hleft := h.stitched_behind.append (h.stitched_middle.append h.stitched_gap)
  have hbrings := Brings.here hleft hgs (mem_remarksOf true ha) .done
  simp only [List.append_nil, List.append_assoc] at hbrings
  exact hbrings.congr (by simp [comments, add_assoc])

/-- A comment inside the list is printed behind the modifier that it follows. -/
theorem brings_dangling (h : Seam owner p next printed behind middle gap front)
    (ha : a ∈ printed) :
    Brings ⟨a, false⟩ (comments p next printed) (behind ++ (middle ++ (gap ++ front))) := by
  obtain ⟨gs, rfl, hgs⟩ := woven_modifierComments h.middle
  have hright := h.stitched_gap.append h.stitched_front
  have hbrings := Brings.here h.stitched_behind hgs (mem_remarksOf false ha) hright
  exact hbrings.congr (by simp [comments])

/-- A comment behind the first modifier is printed behind it: if it has to end its line, a break
is in front of the second one. -/
theorem brings_trailing (h : Seam owner p next printed behind middle gap front)
    (ha : a ∈ p.comments.trailing) :
    Brings ⟨a, true⟩ (comments p next printed) (behind ++ (middle ++ (gap ++ front))) := by
  have hmem : (⟨a, true⟩ : Remark) ∈ remarks p.comments.trailing := mem_remarksOf true ha
  cases hbreaking : p.comments.hasBreakingTrailing with
  | true =>
    have hgap := h.gap
    have hhard : modifierBreak owner p printed (some next.node) = [hardline] := by
      simp [modifierBreak, Piece.hasBreakingTrailing, hbreaking]
    rw [hhard] at hgap
    obtain ⟨stop, _, hstop, rfl, rfl⟩ := hgap
    obtain rfl := scripts_hardline.mp hstop
    have hbrings := Brings.flushed (h.stitched_behind.append h.stitched_middle)
      (Multiset.mem_add.mpr (.inl hmem)) h.stitched_front
    simp only [List.append_nil, List.append_assoc] at hbrings ⊢
    exact hbrings.congr (add_assoc ..)
  | false =>
    obtain ⟨gs, rfl, hgs⟩ := woven_trailingDoc hbreaking h.behind
    have hright := h.stitched_middle.append (h.stitched_gap.append h.stitched_front)
    have hbrings := Brings.here .done hgs hmem hright
    exact hbrings.congr (by simp [comments])

/-- A comment that is put next to what is printed between two modifiers is printed there. -/
theorem exists_brings (h : Seam owner p next printed behind middle gap front)
    (ha : a ∈ next.comments.leading ∨ a ∈ p.comments.trailing ∨ a ∈ printed) :
    ∃ bound, Brings ⟨a, bound⟩ (comments p next printed)
      (behind ++ (middle ++ (gap ++ front))) := by
  rcases ha with ha | ha | ha
  · exact ⟨true, h.brings_leading ha⟩
  · exact ⟨true, h.brings_trailing ha⟩
  · exact ⟨false, h.brings_dangling ha⟩

end Seam

/-- A script that prints the leaves `left`, then some comments with the one that is meant among
them, and then the leaves `right`. -/
inductive BringsBetween (P : Remark → Prop) (a : Remark) (left right : List String) :
    List Cue → Prop
  | intro {cs₁ cs₂ cs₃ q₁ q₂ q₃} (h₁ : Stitched left cs₁ q₁) (h₂ : Brings a cs₂ q₂)
    (h₃ : Stitched right cs₃ q₃) (hcs : ∀ b ∈ cs₁ + (cs₂ + cs₃), P b) :
    BringsBetween P a left right (q₁ ++ (q₂ ++ q₃))

section Trees

variable {scene : Scene} {parent : Option NodeKind}

/-- The pieces of two lists of nodes together. -/
theorem layOutAll_append (parent : Option NodeKind) (ts us : List Tree) :
    layOutAll scene parent (ts ++ us) = layOutAll scene parent ts ++ layOutAll scene parent us := by
  induction ts with
  | nil => rfl
  | cons t ts ih => rw [List.cons_append, layOutAll, layOutAll, ih, List.cons_append]

/-- The pieces of some nodes have their leaves. -/
theorem texts_layOutAll (parent : Option NodeKind) (ts : List Tree) :
    texts (layOutAll scene parent ts) = ts.flatMap Tree.leafTexts := by
  rw [texts_eq_flatMap, map_node_layOutAll]

/-- What is printed for a tree with its comments: those in front of it, the tree with those below
it, and those behind it. -/
theorem exists_of_doc {t : Tree} (hw : t.WellShaped) (hf : scene.attachments.Fits t) {d : Doc}
    (hd : (layOut scene parent t).doc = .ok d) {q : List Cue} (hq : d.Scripts q) :
    ∃ front own behind cs, q = front ++ (own ++ behind) ∧
      (layOut scene parent t).comments.leadingDoc.Scripts front ∧ Stitched t.leafTexts cs own ∧
      (trailingDoc (layOut scene parent t).comments.trailing).Scripts behind ∧
      scene.attachments.within t = remarks (layOut scene parent t).comments.leading + cs +
        remarks (layOut scene parent t).comments.trailing := by
  obtain ⟨s, hs⟩ := exists_laidOutAt scene parent t hw hf
  obtain rfl := hs.node
  obtain ⟨e, he, hweaves⟩ := hs.ready.yields_bare (hw _ s.node.mem_nodes_self)
  have hbare : s.piece.bare = .ok e := he
  rw [hs.piece, Piece.doc, hbare] at hd
  obtain rfl := Except.ok.inj hd
  have hinside : Weaves e s.node.leafTexts (printedInside s.piece.node s.piece.comments +
      shares scene.attachments.within s.children) := hweaves
  obtain ⟨front, own, behind, rfl, hfront, hown, hbehind⟩ := hinside.exists_of_wrap hq
  rw [hs.piece]
  refine ⟨front, own, behind, _, rfl, hfront, hown, hbehind, hs.share.trans ?_⟩
  have hcomments : s.piece.comments = s.comments := rfl
  have hnode : s.piece.node = s.node := rfl
  rw [NodeComments.all, hcomments, hnode]
  ac_rfl

/-- A list of modifiers is laid out with the comments inside it. -/
theorem bare_layOut_modifiers {u : Tree} (hk : u.kind = .modifiers) :
    (layOut scene parent u).bare = (modifierParts parent (scene.attachments.at u.index).dangling
      (layOutAll scene (some .modifiers) u.children)).map cat := by
  cases u with
  | leaf info text =>
    have hinfo : info.kind = .modifiers := hk
    rw [layOut]
    simp only [Site.piece, Site.bare, Scene.site, hinfo, Tree.kind, Tree.info]
    rfl
  | branch info ts =>
    have hinfo : info.kind = .modifiers := hk
    rw [layOut]
    simp only [Site.piece, Site.bare, Scene.site, hinfo, Tree.kind, Tree.info]
    rfl

/-- The children of a well-shaped node give complete pieces. -/
theorem complete_children {u : Tree} (hw : u.WellShaped) (hf : scene.attachments.Fits u) :
    ∀ p ∈ layOutAll scene parent u.children, p.Complete scene.attachments.within := by
  intro p hp
  refine (inner_layOutAll scene parent u.children (fun t ht v hv => ?_) (fun t ht => hf.child ht)
    (fun t ht => hf.tokens t ht t t.mem_nodes_self) p hp).toComplete
  exact hw v (Tree.mem_nodes_iff.mpr (.inr ⟨t, ht, hv⟩))

/-- The comments that a list of modifiers prints are attached. -/
theorem attached_mem_of_mem_modifiers (parent : Option NodeKind) (u : Tree) {b : Remark}
    (hb : b ∈ remarksOf false (scene.attachments.at u.index).dangling +
      shares scene.attachments.within (layOutAll scene parent u.children)) :
    b.attached ∈ scene.attachments := by
  rcases Multiset.mem_add.mp hb with hb | hb
  · have hattached := Multiset.mem_map_of_mem Remark.attached hb
    rw [map_attached_remarksOf, Multiset.mem_coe] at hattached
    exact List.mem_of_mem_filter (List.mem_of_mem_filter hattached)
  · rw [shares_eq_sum, map_node_layOutAll] at hb
    refine Attachments.attached_mem_of_mem_within (t := u) ?_
    rw [Attachments.within_eq]
    exact Multiset.mem_add.mpr (.inr hb)

/-- A comment that comes between two modifiers: in front of the second one, behind the first one, or
inside the list in its turn, whichever comments come before the modifiers up to the first one. -/
inductive ComesBetween (as : Attachments) (u l r : Tree) (before : List Tree)
    (a : AttachedComment) : Prop
  | inFront (h : a ∈ (as.at r.index).leading)
  | behind (h : a ∈ (as.at l.index).trailing)
  | inside (h : ∀ skipped left, (as.at u.index).dangling = skipped ++ left →
      (∀ e ∈ skipped, ∃ t ∈ before ++ [l], comesBefore (some t) e = true) →
      a ∈ left.takeWhile (comesBefore (some r)))

/-- A comment that comes between two modifiers is next to what is printed between them. -/
theorem ComesBetween.mem_or_mem {as : Attachments} {u l r : Tree} {before : List Tree}
    {a : AttachedComment} (h : ComesBetween as u l r before a)
    {skipped printed left : List AttachedComment}
    (hsplit : (as.at u.index).dangling = skipped ++ (printed ++ left))
    (hskipped : ∀ e ∈ skipped, ∃ t ∈ before ++ [l], comesBefore (some t) e = true)
    (hprinted : printed = (printed ++ left).takeWhile (comesBefore (some r))) :
    a ∈ (as.at r.index).leading ∨ a ∈ (as.at l.index).trailing ∨ a ∈ printed := by
  cases h with
  | inFront ha => exact .inl ha
  | behind ha => exact .inr (.inl ha)
  | inside ha =>
    rw [hprinted]
    exact .inr (.inr (ha skipped (printed ++ left) hsplit hskipped))

/-- A list of modifiers prints a comment that comes between two of them between these two. The
script is cut where the documents of the list begin and end. -/
theorem bringsBetween_modifiers {u l r : Tree} {before after : List Tree} (hw : u.WellShaped)
    (hf : scene.attachments.Fits u) (hk : u.kind = .modifiers)
    (hchildren : u.children = before ++ l :: r :: after) {a : AttachedComment}
    (ha : ComesBetween scene.attachments u l r before a)
    {d : Doc} (hd : (layOut scene parent u).bare = .ok d) {q : List Cue} (hq : d.Scripts q) :
    ∃ bound, BringsBetween (fun b => b.attached ∈ scene.attachments) ⟨a, bound⟩
      ((before ++ [l]).flatMap Tree.leafTexts) ((r :: after).flatMap Tree.leafTexts) q := by
  have hchild : ∀ t ∈ u.children, t.WellShaped ∧ scene.attachments.Fits t := fun t ht =>
    ⟨fun v hv => hw v (Tree.mem_nodes_iff.mpr (.inr ⟨t, ht, hv⟩)), hf.child ht⟩
  obtain ⟨hwl, hfl⟩ := hchild l (by simp [hchildren])
  obtain ⟨hwr, hfr⟩ := hchild r (by simp [hchildren])
  have hpieces : layOutAll scene (some .modifiers) u.children =
      layOutAll scene (some .modifiers) before ++ layOut scene (some .modifiers) l ::
        layOut scene (some .modifiers) r :: layOutAll scene (some .modifiers) after := by
    rw [hchildren, layOutAll_append, layOutAll, layOutAll]
  obtain ⟨ds, dl, dr, more, skipped, printed, left, hsplit, hskipped, hprinted, hds, hdl, hdr,
    hmore, hparts⟩ := exists_modifierParts_pair parent (scene.attachments.at u.index).dangling
      (hpieces ▸ complete_children hw hf)
  rw [bare_layOut_modifiers hk, hpieces, hparts] at hd
  obtain rfl := Except.ok.inj hd
  obtain ⟨q₁, _, hq₁, hrest, rfl⟩ := scriptsAll_append.mp (scripts_cat.mp hq)
  obtain ⟨_, _, hpart, ⟨qr, q₃, hqr, hq₃, rfl⟩, rfl⟩ := scriptsAll_append.mp hrest
  obtain ⟨_, gap, ⟨ql, middle, hql, hmiddle, rfl⟩, hgap, rfl⟩ := scriptsAll_append.mp hpart
  obtain ⟨first, own, behind, csl, rfl, hfirst, hown, hbehind, hl⟩ := exists_of_doc hwl hfl hdl hql
  obtain ⟨front, own', last, csr, rfl, hfront, hown', hlast, hr⟩ := exists_of_doc hwr hfr hdr hqr
  have hseam : Seam parent (layOut scene (some .modifiers) l) (layOut scene (some .modifiers) r)
      printed behind middle gap front := ⟨hbehind, hmiddle, hgap, hfront⟩
  have hplace : a ∈ (layOut scene (some .modifiers) r).comments.leading ∨
      a ∈ (layOut scene (some .modifiers) l).comments.trailing ∨ a ∈ printed := by
    rw [comments_layOut, comments_layOut]
    refine ha.mem_or_mem hsplit (fun e he => ?_) (node_layOut scene _ r ▸ hprinted)
    obtain ⟨p, hp, hbefore⟩ := hskipped e he
    have hnode : p.node ∈ (layOutAll scene (some .modifiers) before ++
        [layOut scene (some .modifiers) l]).map Piece.node := List.mem_map_of_mem hp
    refine ⟨p.node, ?_, hbefore⟩
    simpa [map_node_layOutAll, node_layOut] using hnode
  obtain ⟨bound, hbrings⟩ := hseam.exists_brings hplace
  have hleft := (hds.concat.stitched q₁ hq₁).append
    (((weaves_leadingDoc _).stitched first hfirst).append hown)
  have hlast : Stitched [] (remarks (layOut scene (some .modifiers) r).comments.trailing) last :=
    (weaves_trailingDoc _).stitched last hlast
  have hright := (hown'.append hlast).append (hmore.concat.stitched q₃ hq₃)
  have hall := BringsBetween.intro (P := fun b => b.attached ∈ scene.attachments) hleft hbrings
    hright fun b hb => attached_mem_of_mem_modifiers (some .modifiers) u
      (Multiset.mem_of_le (le_of_eq ?_) hb)
  · exact ⟨bound, by simpa [texts_layOutAll] using hall⟩
  · rw [hpieces, hsplit, remarksOf_append, remarksOf_append, shares_append, shares_cons,
      shares_cons, node_layOut, node_layOut, hl, hr, Seam.comments]
    ac_rfl

end Trees

end JavaFormat.Layout
