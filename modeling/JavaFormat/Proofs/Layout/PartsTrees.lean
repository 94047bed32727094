import JavaFormat.Proofs.Layout.Document
import JavaFormat.Proofs.Layout.PartsRules

/-!
# What a node is printed as stands in the document

By induction on the tree, what the rule of a node prints is in one stretch of whatever is
printed for the whole source. The last links of chains are the exception: what they are
printed as is made of the links of the whole chain by the node at its end.
-/

namespace JavaFormat.Layout

open Doc

variable {part : Doc} {s : Site}

/-- What the kind of a branch calls for. -/
theorem regular_of_branch {t : Tree} (h : t.Regular) (hbranch : t.text? = none) :
    t.kind ≠ .token ∧ t.kind.isVerbatim = false ∧ Shape.Allowed t.kind t.children := by
  cases t with
  | leaf info text => cases hbranch
  | branch info ts => exact h

/-- A node whose child carries a part carries it. -/
theorem carries_piece (hnodes : s.children.map Piece.node = s.node.children)
    (h : Carried part s.children) (hregular : s.node.Regular) (hbranch : s.node.text? = none) :
    s.piece.Carries part := by
  obtain ⟨ht, hv, ha⟩ := regular_of_branch hregular hbranch
  have hnamed : s.node.isNamed = true := by simpa [Tree.isNamed] using ht
  refine ⟨hnamed, hbranch, within_bare hnodes h ha ht hv, ?_, ?_⟩
  · intro found hfound
    obtain ⟨hk, rfl⟩ := operators_piece hfound
    rw [hk] at ha
    exact ensures_operators_carries hnodes h ha
  · intro chain hchain
    exact carries_callChain s.comments h (calls_piece hchain).2

/-- A node that is printed by its own rule wherever it stands: no leaf, and none that may be a
link of a chain. -/
structure IsPlain (t : Tree) : Prop where
  branch : t.text? = none
  operator : t.kind ≠ .binaryExpression
  call : t.kind ≠ .methodInvocation

/-- The piece of such a node carries what its rule prints. -/
theorem carries_piece_self (hregular : s.node.Regular) (hplain : IsPlain s.node)
    (hpart : s.bare = .ok part) : s.piece.Carries part := by
  have hnamed : s.node.isNamed = true := by
    simpa [Tree.isNamed] using (regular_of_branch hregular hplain.branch).1
  refine ⟨hnamed, hplain.branch, fun d hd => ?_,
    fun _ hfound => absurd (operators_piece hfound).1 hplain.operator,
    fun _ hchain => absurd (calls_piece hchain).1 hplain.call⟩
  obtain rfl := Except.ok.inj (hpart.symm.trans hd)
  exact within_self part

section Trees

variable {scene : Scene}

/-- The piece of a node is one of those of the list that the node is in. -/
theorem mem_layOutAll {parent : Option NodeKind} {ts : List Tree} {t : Tree} (ht : t ∈ ts) :
    layOut scene parent t ∈ layOutAll scene parent ts := by
  induction ts with
  | nil => cases ht
  | cons u us ih =>
    rw [layOutAll]
    rcases List.mem_cons.mp ht with rfl | ht
    · exact List.mem_cons_self
    · exact List.mem_cons_of_mem _ (ih ht)

/-- A node that is no link carries what its rule prints. -/
theorem carries_self {parent : Option NodeKind} {t : Tree} (ht : t.Regular) (hplain : IsPlain t)
    (hpart : (layOut scene parent t).bare = .ok part) : (layOut scene parent t).Carries part := by
  cases t with
  | leaf info text => cases hplain.branch
  | branch info ts =>
    rw [layOut] at hpart ⊢
    exact carries_piece_self ht hplain hpart

/-- A tree carries what the rule of a node in it prints. -/
theorem carries_layOut {t u : Tree} (hw : t.WellShaped) (hu : u ∈ t.nodes) (hplain : IsPlain u)
    (parent : Option NodeKind) : ∃ above, ∀ part, (layOut scene above u).bare = .ok part →
      (layOut scene parent t).Carries part := by
  induction t using Tree.induction_children generalizing parent with
  | step t ih =>
    rcases Tree.mem_nodes_iff.mp hu with rfl | ⟨v, hv, huv⟩
    · exact ⟨parent, fun part => carries_self (hw u u.mem_nodes_self) hplain⟩
    · cases t with
      | leaf info text => cases hv
      | branch info ts =>
        have hregular := hw _ (Tree.mem_nodes_self _)
        obtain ⟨above, habove⟩ :=
          ih v hv ((Tree.wellShaped_branch_iff.mp hw).2 v hv) huv (some info.kind)
        refine ⟨above, fun part hpart => ?_⟩
        have hcarried : Carried part (layOutAll scene (some info.kind) ts) :=
          ⟨_, mem_layOutAll hv, habove part hpart⟩
        rw [layOut]
        exact carries_piece (map_node_layOutAll scene (some info.kind) ts) hcarried hregular rfl

end Trees

/-- What is printed for a node is in one stretch of what is printed for the source. -/
theorem within_document {p : Parsed} (h : p.WellShaped) (as : Attachments) {u : Tree}
    (hu : u ∈ Tree.nodesOfAll p.roots) (hplain : IsPlain u) :
    ∃ above, ∀ part, (layOut (Scene.of p as) above u).bare = .ok part →
      Ensures (document p as) part.Within := by
  rw [Tree.nodesOfAll_eq_flatMap] at hu
  obtain ⟨root, hroot, hu⟩ := List.mem_flatMap.mp hu
  obtain ⟨above, habove⟩ : ∃ above, ∀ part, (layOut (Scene.of p as) above u).bare = .ok part →
      (layOut (Scene.of p as) p.rootParent root).Carries part :=
    carries_layOut (h.shaped root hroot) hu hplain p.rootParent
  refine ⟨above, fun part hpart => ?_⟩
  have hcarried : Carried part (layOutAll (Scene.of p as) p.rootParent p.roots) :=
    ⟨_, mem_layOutAll hroot, habove part hpart⟩
  have hfragment : Ensures (fragmentDoc p (layOutAll (Scene.of p as) p.rootParent p.roots))
      part.Within :=
    (within_members p.source _ hcarried).bind fun d hd => .pure (hd.head _).cat
  unfold document
  split
  · rename_i hpieces
    rw [hpieces] at hcarried
    exact absurd hcarried not_carried_nil
  · rename_i piece hpieces
    rw [hpieces] at hcarried hfragment
    split
    · exact ((carried_cons_iff.mp hcarried).resolve_right not_carried_nil).doc
    · exact hfragment
  · exact hfragment

end JavaFormat.Layout
