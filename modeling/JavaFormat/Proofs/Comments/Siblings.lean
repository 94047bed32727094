import JavaFormat.Proofs.Comments.Targets

/-!
# Comments between siblings

A comment between two children of a node that are next to each other is around none of the
children, so the node is the deepest one around it, and the walk down the roots ends there. The
comment is put inside the node only if no child is named. Else it goes to the nearest named child
on one side, which need not be one of the two that it stands between.
-/

namespace JavaFormat

/-- A place that puts a comment between two children of a node: inside the node, which has no named
child, behind the first one, or in front of the second one. -/
inductive Placement.Between (c : Comment) (u l r : Tree) : Placement → Prop
  | inside (hnone : u.namedChildren = []) (hl : c.isBehind l = true) (hr : c.isBefore r = true) :
    Placement.Between c u l r ⟨u, .dangling⟩
  | behind (hl : (u.namedChildren.filter c.isBehind).getLast? = some l) :
    Placement.Between c u l r ⟨l, .trailing⟩
  | inFront (hr : u.namedChildren.find? c.isBefore = some r) :
    Placement.Between c u l r ⟨r, .leading⟩

/-- A member of a list is next to another one if there are more behind the list. -/
theorem exists_next {α : Type} {t : α} {ts us : List α} (ht : t ∈ ts) (hus : us ≠ []) :
    ∃ before r after, ts ++ us = before ++ t :: r :: after := by
  obtain ⟨before, rest, rfl⟩ := List.append_of_mem ht
  obtain ⟨r, after, hr⟩ :=
    List.exists_cons_of_ne_nil (List.append_ne_nil_of_right_ne_nil rest hus)
  exact ⟨before, r, after, by rw [List.append_assoc, List.cons_append, hr]⟩

/-- A member of a list is next to another one if there are more in front of the list. -/
theorem exists_previous {α : Type} {t : α} {ts us : List α} (ht : t ∈ us) (hts : ts ≠ []) :
    ∃ before l after, ts ++ us = before ++ l :: t :: after := by
  obtain ⟨rest, after, rfl⟩ := List.append_of_mem ht
  obtain ⟨before, l, hl⟩ := (List.eq_nil_or_concat (ts ++ rest)).resolve_left (by simp [hts])
  exact ⟨before, l, after, by rw [← List.append_assoc, hl]; simp⟩

namespace Parsed

variable {p : Parsed} {policy : TieBreak} {c : Comment} {u l r : Tree} {before after : List Tree}

/-- A node below a child of a node is no root. -/
theorem not_mem_roots_of_below_child (hnodup : (Tree.nodesOfAll p.roots).Nodup)
    (hu : u ∈ Tree.nodesOfAll p.roots) {v t : Tree} (hv : v ∈ u.children) (ht : t ∈ v.nodes) :
    t ∉ p.roots := by
  rw [Tree.nodesOfAll_eq_flatMap] at hu
  obtain ⟨root, hroot, hu⟩ := List.mem_flatMap.mp hu
  rcases Tree.mem_nodes_iff.mp hu with rfl | ⟨w, hw, huw⟩
  · exact not_mem_roots_of_below hnodup hroot hv ht
  · have hbelow := Tree.mem_nodes_trans huw (Tree.mem_nodes_of_mem_children hv)
    exact not_mem_roots_of_below hnodup hroot hw (Tree.mem_nodes_trans hbelow ht)

/-- The children of a node do not end in front of where they start. -/
theorem Orderly.forward_of_mem_children (h : p.Orderly) (hu : u ∈ Tree.nodesOfAll p.roots)
    {t : Tree} (ht : t ∈ u.children) : t.span.start.offset ≤ t.span.stop.offset :=
  (h.nodes t (Tree.mem_nodesOfAll_trans hu (Tree.mem_nodes_of_mem_children ht))).forward

/-- A comment between two children that are next to each other has all children on its sides. -/
theorem Orderly.forall_sides (h : p.Orderly) (hu : u ∈ Tree.nodesOfAll p.roots)
    (hchildren : u.children = before ++ l :: r :: after) (hl : c.isBehind l = true)
    (hr : c.isBefore r = true) :
    (∀ t ∈ before ++ [l], c.isBehind t = true) ∧ ∀ t ∈ r :: after, c.isBefore t = true := by
  have hforward : ∀ t ∈ u.children, t.span.start.offset ≤ t.span.stop.offset :=
    fun t ht => h.forward_of_mem_children hu ht
  have hordered := (h.nodes u hu).ordered
  have hbehind := of_decide_eq_true hl
  have hbefore := of_decide_eq_true hr
  rw [hchildren] at hordered hforward
  obtain ⟨-, hright, hacross⟩ := List.pairwise_append.mp hordered
  have hafter := (List.pairwise_cons.mp (List.pairwise_cons.mp hright).2).1
  have hleft := hforward l (by simp)
  have hright := hforward r (by simp)
  constructor
  · refine List.forall_mem_append.mpr ⟨fun t ht => ?_, List.forall_mem_singleton.mpr hl⟩
    have := hacross t ht l List.mem_cons_self
    exact decide_eq_true (by omega)
  · refine List.forall_mem_cons.mpr ⟨hr, fun t ht => ?_⟩
    have := hafter t ht
    exact decide_eq_true (by omega)

/-- The deepest node around a comment between two children that are next to each other is their
parent. -/
theorem Orderly.container_of_between (h : p.Orderly)
    (hnodup : (Tree.nodesOfAll p.roots).Nodup) (hu : u ∈ Tree.nodesOfAll p.roots)
    (hnamed : u.isNamed = true) (hchildren : u.children = before ++ l :: r :: after)
    (hc : c ∈ p.comments) (hl : c.isBehind l = true) (hr : c.isBefore r = true) :
    (Surroundings.of p c).container = some u := by
  have hnearest := h.nearest hc
  have hnonempty := h.nonempty c hc
  have hinside : c.IsInside u := by
    have hself := h.nodes u hu
    have hlu : l ∈ u.children := by simp [hchildren]
    have hru : r ∈ u.children := by simp [hchildren]
    have hleft := (h.forward_of_mem_children hu hlu).trans (of_decide_eq_true hl)
    have hright := (of_decide_eq_true hr).trans (h.forward_of_mem_children hu hru)
    exact ⟨(hself.starts l hlu).trans hleft, hright.trans (hself.stops r hru)⟩
  have houtside : ∀ v ∈ u.children, ¬ c.IsInside v := by
    obtain ⟨hleft, hright⟩ := h.forall_sides hu hchildren hl hr
    intro v hv ⟨hstart, hstop⟩
    have hside : v ∈ (before ++ [l]) ++ r :: after := by simpa [hchildren] using hv
    rcases List.mem_append.mp hside with hv | hv
    · have := of_decide_eq_true (hleft v hv)
      omega
    · have := of_decide_eq_true (hright v hv)
      omega
  have hreach : Placement.Reachable p.roots u :=
    ⟨hu, fun hk => by simp [Tree.isNamed, hk] at hnamed⟩
  cases hcontainer : (Surroundings.of p c).container with
  | none =>
    have hroots := hu
    rw [Tree.nodesOfAll_eq_flatMap] at hroots
    obtain ⟨root, hroot, hbelow⟩ := List.mem_flatMap.mp hroots
    have henclosed := Surroundings.isInside_of_mem_nodes (h.of_mem_roots hroot) hbelow hinside
    exact absurd (.inr henclosed) (hnearest.outside.mp hcontainer root hroot)
  | some t =>
    have hdeepest := hnearest.container t hcontainer
    rcases Tree.mem_nodes_iff.mp (hdeepest.below u hreach (.inr hinside)) with rfl | ⟨v, hv, ht⟩
    · rfl
    · rcases hdeepest.encloses with ⟨hroots, -⟩ | hinside
      · have hnone := not_mem_roots_of_below_child hnodup hu hv ht
        rw [hroots] at hnone
        exact absurd (List.mem_singleton_self t) hnone
      · have hbelow : ∀ w ∈ v.nodes, w.Orderly := fun w hw => h.nodes w
          (Tree.mem_nodesOfAll_trans hu (Tree.mem_nodes_iff.mpr (.inr ⟨v, hv, hw⟩)))
        exact absurd (Surroundings.isInside_of_mem_nodes hbelow ht hinside) (houtside v hv)

/-- A comment between two children that are next to each other is put inside their parent, if that
has no named child, and else behind the nearest named child in front of it or in front of the
nearest one behind it. Bodies do not come in as long as no child is one. -/
theorem Orderly.place_of_between (h : p.Orderly) (hnodup : (Tree.nodesOfAll p.roots).Nodup)
    (hu : u ∈ Tree.nodesOfAll p.roots) (hnamed : u.isNamed = true)
    (hbody : ∀ t ∈ u.namedChildren, t.kind.isBody = false)
    (hchildren : u.children = before ++ l :: r :: after) (hc : c ∈ p.comments)
    (hl : c.isBehind l = true) (hr : c.isBefore r = true) {place : Placement}
    (hplace : Placement.of? policy p c = some place) :
    place = ⟨u, .dangling⟩ ∧ u.namedChildren = [] ∨
      (∃ t, place = ⟨t, .trailing⟩ ∧ (u.namedChildren.filter c.isBehind).getLast? = some t) ∨
      ∃ t, place = ⟨t, .leading⟩ ∧ u.namedChildren.find? c.isBefore = some t := by
  have hnearest := h.nearest hc
  have hcontainer := h.container_of_between hnodup hu hnamed hchildren hc hl hr
  have hcandidates : (Surroundings.of p c).candidates p.roots = u.namedChildren := by
    simp [Surroundings.candidates, hcontainer]
  have hprevious := hnearest.previous
  have hfollowing := hnearest.following
  rw [hcandidates] at hprevious hfollowing
  have hnobody : Placement.bodyAhead? p.source c (Surroundings.of p c) = none := by
    rw [Option.eq_none_iff_forall_ne_some]
    intro body hahead
    have hright := Placement.following_of_bodyAhead? hahead
    rw [hfollowing] at hright
    have hkind := hbody body (List.mem_of_find?_eq_some hright)
    simp [Placement.bodyAhead?, hcontainer, hfollowing, hright, hkind] at hahead
  have hchoice : Placement.choose? policy c (Surroundings.of p c) = some place := by
    simpa [Placement.of?, hnobody] using hplace
  obtain ⟨node, role⟩ := place
  rcases Placement.of_choose? hchoice with ⟨hleft, hrole⟩ | ⟨hright, hrole⟩ |
    ⟨hleft, hright, hnode, hrole⟩
  · obtain rfl : role = .trailing := hrole
    exact .inr (.inl ⟨node, rfl, hprevious.symm.trans hleft⟩)
  · obtain rfl : role = .leading := hrole
    exact .inr (.inr ⟨node, rfl, hfollowing.symm.trans hright⟩)
  · rw [hcontainer] at hnode
    obtain rfl := Option.some.inj hnode
    obtain rfl : role = .dangling := hrole
    obtain ⟨place, hplace', hproper⟩ := Placement.exists_of? policy p (roots_ne_nil_of_of? hplace) c
    obtain rfl := Option.some.inj (hplace'.symm.trans hplace)
    exact .inl ⟨rfl, hproper.vacant rfl⟩

/-- A comment between two children that are next to each other is put between two such children,
which are the same ones if the parent has no named child. A child on one side of the comment is not
on the other. -/
theorem Orderly.exists_between (h : p.Orderly) (hnodup : (Tree.nodesOfAll p.roots).Nodup)
    (hu : u ∈ Tree.nodesOfAll p.roots) (hnamed : u.isNamed = true)
    (hbody : ∀ t ∈ u.namedChildren, t.kind.isBody = false)
    (hchildren : u.children = before ++ l :: r :: after) (hc : c ∈ p.comments)
    (hl : c.isBehind l = true) (hr : c.isBefore r = true) {place : Placement}
    (hplace : Placement.of? policy p c = some place) :
    ∃ before' l' r' after', u.children = before' ++ l' :: r' :: after' ∧
      Placement.Between c u l' r' place := by
  have hnonempty := h.nonempty c hc
  have hsides : ∀ t ∈ u.children, c.isBehind t = true → ¬ c.isBefore t = true := by
    intro t ht hbehind hbefore
    have := h.forward_of_mem_children hu ht
    have := of_decide_eq_true hbehind
    have := of_decide_eq_true hbefore
    omega
  obtain ⟨hleft, hright⟩ := h.forall_sides hu hchildren hl hr
  have hall : u.children = (before ++ [l]) ++ r :: after := by simp [hchildren]
  rcases h.place_of_between hnodup hu hnamed hbody hchildren hc hl hr hplace with
    ⟨rfl, hnone⟩ | ⟨t, rfl, ht⟩ | ⟨t, rfl, ht⟩
  · exact ⟨before, l, r, after, hchildren, .inside hnone hl hr⟩
  · obtain ⟨hmem, hbehind⟩ := List.mem_filter.mp (List.mem_of_getLast? ht)
    have hchild : t ∈ u.children := List.mem_of_mem_filter hmem
    have hfront : t ∈ before ++ [l] := by
      rcases List.mem_append.mp (hall ▸ hchild) with hin | hin
      · exact hin
      · exact absurd (hright t hin) (hsides t hchild hbehind)
    obtain ⟨before', r', after', hsplit⟩ := exists_next hfront (List.cons_ne_nil r after)
    exact ⟨before', t, r', after', hall.trans hsplit, .behind ht⟩
  · have hchild : t ∈ u.children := List.mem_of_mem_filter (List.mem_of_find?_eq_some ht)
    have hback : t ∈ r :: after := by
      rcases List.mem_append.mp (hall ▸ hchild) with hin | hin
      · exact absurd (List.find?_some ht) (hsides t hchild (hleft t hin))
      · exact hin
    obtain ⟨before', l', after', hsplit⟩ := exists_previous hback (List.concat_ne_nil l before)
    exact ⟨before', l', t, after', hall.trans hsplit, .inFront ht⟩

end Parsed
end JavaFormat
