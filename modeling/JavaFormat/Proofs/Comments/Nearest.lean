import JavaFormat.Proofs.Comments.ByNode

/-!
# Comments go to the nearest node

If siblings stand one behind the other inside the node above and no node is cut by a
comment, the walk down the roots ends at the deepest node around the comment, and its
neighbours are the nearest named children on both sides. So a comment in front of a
node is printed in front of it, one behind a node behind it, and one inside a node
only if there is nothing else to print inside.
-/

namespace JavaFormat

/-! ## Spans -/

/-- A node whose span runs forward and has the spans of the children in it, one behind
the other. Tokens have no children. -/
structure Tree.Orderly (t : Tree) : Prop where
  forward : t.span.start.offset ≤ t.span.stop.offset
  starts : ∀ u ∈ t.children, t.span.start.offset ≤ u.span.start.offset
  stops : ∀ u ∈ t.children, u.span.stop.offset ≤ t.span.stop.offset
  ordered : t.children.Pairwise fun a b => a.span.stop.offset ≤ b.span.start.offset
  token : t.kind = .token → t.children = []

/-- Whether a tree is orderly can be decided. -/
instance (t : Tree) : Decidable t.Orderly :=
  decidable_of_iff
    (t.span.start.offset ≤ t.span.stop.offset ∧
      (∀ u ∈ t.children, t.span.start.offset ≤ u.span.start.offset) ∧
      (∀ u ∈ t.children, u.span.stop.offset ≤ t.span.stop.offset) ∧
      (t.children.Pairwise fun a b => a.span.stop.offset ≤ b.span.start.offset) ∧
      (t.kind = .token → t.children = []))
    ⟨fun ⟨h₁, h₂, h₃, h₄, h₅⟩ => ⟨h₁, h₂, h₃, h₄, h₅⟩, fun ⟨h₁, h₂, h₃, h₄, h₅⟩ => ⟨h₁, h₂, h₃, h₄, h₅⟩⟩

namespace Comment

/-- Whether a tree ends in front of a comment. -/
def isBehind (c : Comment) (t : Tree) : Bool := t.span.stop.offset ≤ c.span.start.offset

/-- Whether a tree begins behind a comment. -/
def isBefore (c : Comment) (t : Tree) : Bool := c.span.stop.offset ≤ t.span.start.offset

/-- The comment is within the span of the tree. -/
def IsInside (c : Comment) (t : Tree) : Prop :=
  t.span.start.offset ≤ c.span.start.offset ∧ c.span.stop.offset ≤ t.span.stop.offset

/-- Whether a comment is inside a node can be decided. -/
instance (c : Comment) (t : Tree) : Decidable (c.IsInside t) := inferInstanceAs (Decidable (_ ∧ _))

/-- The comment does not cut the tree. -/
def Clear (c : Comment) (t : Tree) : Prop :=
  c.IsInside t ∨ c.isBehind t = true ∨ c.isBefore t = true

/-- Whether a comment is clear of a node can be decided. -/
instance (c : Comment) (t : Tree) : Decidable (c.Clear t) := inferInstanceAs (Decidable (_ ∨ _))

end Comment

/-- A source whose siblings stand one behind the other inside the node above, with
comments that are not empty and cut no node. -/
structure Parsed.Orderly (p : Parsed) : Prop where
  ordered : p.roots.Pairwise fun a b => a.span.stop.offset ≤ b.span.start.offset
  nodes : ∀ t ∈ Tree.nodesOfAll p.roots, t.Orderly
  nonempty : ∀ c ∈ p.comments, c.span.start.offset < c.span.stop.offset
  clear : ∀ c ∈ p.comments, ∀ t ∈ Tree.nodesOfAll p.roots, c.Clear t

/-- Whether a parsed source is orderly can be decided. -/
instance (p : Parsed) : Decidable p.Orderly :=
  decidable_of_iff
    ((p.roots.Pairwise fun a b => a.span.stop.offset ≤ b.span.start.offset) ∧
      (∀ t ∈ Tree.nodesOfAll p.roots, t.Orderly) ∧
      (∀ c ∈ p.comments, c.span.start.offset < c.span.stop.offset) ∧
      ∀ c ∈ p.comments, ∀ t ∈ Tree.nodesOfAll p.roots, c.Clear t)
    ⟨fun ⟨h₁, h₂, h₃, h₄⟩ => ⟨h₁, h₂, h₃, h₄⟩, fun ⟨h₁, h₂, h₃, h₄⟩ => ⟨h₁, h₂, h₃, h₄⟩⟩

/-- The comment belongs inside the tree. A compilation unit is around all comments. -/
def Parsed.Encloses (p : Parsed) (c : Comment) (t : Tree) : Prop :=
  p.roots = [t] ∧ t.kind = .program ∨ c.IsInside t

/-- The deepest around a comment among the roots and the named nodes below them: every
other one around it is above. -/
structure Parsed.Deepest (p : Parsed) (c : Comment) (t : Tree) : Prop where
  reachable : Placement.Reachable p.roots t
  encloses : p.Encloses c t
  below : ∀ u, Placement.Reachable p.roots u → p.Encloses c u → t ∈ u.nodes

/-- The deepest named node around a comment: every other one around it is above. -/
structure Parsed.DeepestNamed (p : Parsed) (c : Comment) (t : Tree) : Prop where
  mem : t ∈ Tree.nodesOfAll p.roots
  named : t.isNamed = true
  encloses : p.Encloses c t
  below : ∀ u ∈ Tree.nodesOfAll p.roots, u.isNamed = true → p.Encloses c u → t ∈ u.nodes

/-- The comment is in none of the tokens among some trees. -/
def Comment.OutsideTokens (c : Comment) (ts : List Tree) : Prop :=
  ∀ t ∈ ts, t.kind = .token → ¬c.IsInside t

/-- Whether a comment is outside all tokens can be decided. -/
instance (c : Comment) (ts : List Tree) : Decidable (c.OutsideTokens ts) :=
  inferInstanceAs (Decidable (∀ t ∈ ts, t.kind = .token → ¬c.IsInside t))

namespace Parsed

variable {p : Parsed} {c : Comment} {t : Tree}

/-- A program that is the only root is no token, and what is in no token is around no other
token root. -/
theorem Encloses.isNamed (h : p.Encloses c t) (hbare : c.OutsideTokens p.roots)
    (hroot : t ∈ p.roots) : t.isNamed = true := by
  rcases h with ⟨-, hkind⟩ | hinside
  · simp [Tree.isNamed, hkind]
  · have hkind : t.kind ≠ .token := fun hkind => hbare t hroot hkind hinside
    simpa [Tree.isNamed] using hkind

/-- If no token holds the comment, the deepest around it among the roots and the named nodes below
them is the deepest named node. -/
theorem Deepest.named (h : p.Deepest c t) (hbare : c.OutsideTokens p.roots) :
    p.DeepestNamed c t where
  mem := h.reachable.mem
  named := by
    by_contra hnot
    have hkind : t.kind = .token := by simpa [Tree.isNamed] using hnot
    exact hnot (h.encloses.isNamed hbare (h.reachable.token hkind))
  encloses := h.encloses
  below u hu hnamed hencloses := by
    refine h.below u ⟨hu, fun hkind => ?_⟩ hencloses
    rw [Tree.isNamed, hkind] at hnamed
    cases hnamed

end Parsed

namespace Surroundings

/-- The nodes that the neighbours are taken from: the named children of the container,
or the roots if there is none. -/
def candidates (s : Surroundings) (roots : List Tree) : List Tree :=
  match s.container with
  | some t => t.namedChildren
  | none => roots

/-- The container is the deepest node around the comment, and the neighbours are the
nearest candidates on both sides. -/
structure Nearest (p : Parsed) (c : Comment) (s : Surroundings) : Prop where
  container : ∀ t, s.container = some t → p.Deepest c t
  outside : s.container = none ↔ ∀ root ∈ p.roots, ¬ p.Encloses c root
  previous : s.previous = ((s.candidates p.roots).filter c.isBehind).getLast?
  following : s.following = (s.candidates p.roots).find? c.isBefore

/-- The candidates for neighbours are nodes of the roots. -/
theorem Nearest.mem_nodesOfAll {p : Parsed} {c : Comment} {s : Surroundings} (h : s.Nearest p c)
    {t : Tree} (ht : t ∈ s.candidates p.roots) : t ∈ Tree.nodesOfAll p.roots := by
  unfold candidates at ht
  split at ht
  · rename_i container hcontainer
    exact Tree.mem_nodesOfAll_trans (h.container container hcontainer).reachable.mem
      (Tree.mem_nodes_of_mem_children (List.mem_of_mem_filter ht))
  · exact Tree.mem_nodesOfAll_of_mem ht t.mem_nodes_self

/-! ## One level of the walk -/

/-- The surroundings of a stretch among some candidates. -/
def scan (start stop : Nat) (container previous : Option Tree) : List Tree → Surroundings
  | [] => ⟨container, previous, none⟩
  | t :: ts =>
    if t.span.stop.offset ≤ start then scan start stop container (some t) ts
    else if stop ≤ t.span.start.offset then ⟨container, previous, some t⟩
    else inside start stop t

/-- Among the children of a node, the named ones are the candidates. -/
theorem among_eq_scan (start stop : Nat) (container previous : Option Tree) (ts : List Tree) :
    among start stop container previous ts =
      scan start stop container previous (ts.filter Tree.isNamed) := by
  induction ts generalizing previous with
  | nil => simp [among, scan]
  | cons t ts ih =>
    rw [among]
    by_cases hn : t.isNamed = true
    · rw [List.filter_cons_of_pos hn, scan, ← ih]
      simp [hn]
    · rw [List.filter_cons_of_neg hn, ih]
      simp [hn]

/-- Among several roots, all of them are candidates. -/
theorem amongRoots_eq_scan (start stop : Nat) (previous : Option Tree) (ts : List Tree) :
    amongRoots start stop previous ts = scan start stop none previous ts := by
  induction ts generalizing previous with
  | nil => rfl
  | cons t ts ih => rw [amongRoots, scan, ih]

/-- Inside a node, its named children are the candidates. -/
theorem inside_eq_scan (start stop : Nat) (t : Tree) :
    inside start stop t = scan start stop (some t) none t.namedChildren := by
  cases t with
  | leaf info text => rw [inside]; rfl
  | branch info ts => rw [inside, among_eq_scan]; rfl

/-- The surroundings of a comment that is in none of the candidates. -/
def between (c : Comment) (container previous : Option Tree) (ts : List Tree) : Surroundings where
  container := container
  previous := (ts.filter c.isBehind).getLast?.or previous
  following := ts.find? c.isBefore

variable {c : Comment} (hc : c.span.start.offset < c.span.stop.offset)
include hc

/-- One level of the walk goes into a candidate around the comment, or finds the nearest candidates
on both sides if there is none. The candidates behind one that begins behind the comment begin
behind it as well. -/
theorem scan_inside_or_between (container previous : Option Tree) {ts : List Tree}
    (hforward : ∀ t ∈ ts, t.span.start.offset ≤ t.span.stop.offset)
    (hordered : ts.Pairwise fun a b => a.span.stop.offset ≤ b.span.start.offset)
    (hclear : ∀ t ∈ ts, c.Clear t) :
    (∃ t ∈ ts, c.IsInside t ∧ scan c.span.start.offset c.span.stop.offset container previous ts =
      inside c.span.start.offset c.span.stop.offset t) ∨
    (∀ t ∈ ts, ¬ c.IsInside t) ∧
      scan c.span.start.offset c.span.stop.offset container previous ts =
        between c container previous ts := by
  induction ts generalizing previous with
  | nil => exact .inr ⟨by simp, by simp [scan, between]⟩
  | cons t ts ih =>
    obtain ⟨hlater, hordered⟩ := List.pairwise_cons.mp hordered
    obtain ⟨ht, hforward⟩ := List.forall_mem_cons.mp hforward
    obtain ⟨hcut, hclear⟩ := List.forall_mem_cons.mp hclear
    rw [scan]
    split
    · rename_i hbehind
      have hout : ¬ c.IsInside t := fun h => by
        have := h.2
        omega
      have hbefore : c.isBefore t = false := by
        simp only [Comment.isBefore, decide_eq_false_iff_not]
        omega
      rcases ih (some t) hforward hordered hclear with ⟨u, hu, hinside, hscan⟩ | ⟨hnone, hscan⟩
      · exact .inl ⟨u, List.mem_cons_of_mem _ hu, hinside, hscan⟩
      · refine .inr ⟨List.forall_mem_cons.mpr ⟨hout, hnone⟩, hscan.trans ?_⟩
        have hkept : c.isBehind t = true := by simpa [Comment.isBehind] using hbehind
        simp only [between, List.filter_cons_of_pos hkept, List.getLast?_cons, List.find?_cons,
          hbefore]
        cases (ts.filter c.isBehind).getLast? <;> rfl
    · rename_i hbehind
      split
      · rename_i hbefore
        have hbeyond : ∀ u ∈ t :: ts, c.span.stop.offset ≤ u.span.start.offset := by
          refine List.forall_mem_cons.mpr ⟨hbefore, fun u hu => ?_⟩
          have := hlater u hu
          omega
        have hforward : ∀ u ∈ t :: ts, u.span.start.offset ≤ u.span.stop.offset :=
          List.forall_mem_cons.mpr ⟨ht, hforward⟩
        refine .inr ⟨fun u hu hinside => ?_, ?_⟩
        · have := hbeyond u hu
          have := hinside.1
          omega
        · have hnone : (t :: ts).filter c.isBehind = [] := by
            rw [List.filter_eq_nil_iff]
            intro u hu
            have := hbeyond u hu
            have := hforward u hu
            simp only [Comment.isBehind, decide_eq_true_eq]
            omega
          have hfirst : c.isBefore t = true := by simpa [Comment.isBefore] using hbefore
          simp [between, hnone, hfirst]
      · rename_i hbefore
        refine .inl ⟨t, List.mem_cons_self, ?_, rfl⟩
        rcases hcut with hinside | hcut | hcut
        · exact hinside
        · exact absurd (of_decide_eq_true hcut) hbehind
        · exact absurd (of_decide_eq_true hcut) hbefore

/-- A comment is in no more than one of several trees. -/
theorem eq_of_isInside {ts : List Tree}
    (hordered : ts.Pairwise fun a b => a.span.stop.offset ≤ b.span.start.offset) {t u : Tree}
    (ht : t ∈ ts) (hu : u ∈ ts) (htc : c.IsInside t) (huc : c.IsInside u) : t = u := by
  have hapart : ts.Pairwise fun a b => ¬(c.IsInside a ∧ c.IsInside b) := by
    refine hordered.imp fun {a b} hab ⟨ha, hb⟩ => ?_
    have := ha.2
    have := hb.1
    omega
  have hsymm : Std.Symm fun a b => ¬(c.IsInside a ∧ c.IsInside b) := ⟨fun _ _ h hba => h hba.symm⟩
  by_contra hne
  exact hapart.forall ht hu hne ⟨htc, huc⟩

/-! ## The whole walk -/

omit hc in
/-- A tree is around every comment that is inside one of its nodes. -/
theorem isInside_of_mem_nodes {t : Tree} (ht : ∀ v ∈ t.nodes, v.Orderly) {u : Tree}
    (hu : u ∈ t.nodes) (huc : c.IsInside u) : c.IsInside t := by
  induction t using Tree.induction_children with
  | step t ih =>
    rcases Tree.mem_nodes_iff.mp hu with rfl | ⟨w, hw, hu⟩
    · exact huc
    · have hself := ht t t.mem_nodes_self
      have hbelow : ∀ v ∈ w.nodes, v.Orderly := fun v hv =>
        ht v (Tree.mem_nodes_iff.mpr (.inr ⟨w, hw, hv⟩))
      have hwc := ih w hw hbelow hu
      exact ⟨(hself.starts w hw).trans hwc.1, hwc.2.trans (hself.stops w hw)⟩

omit hc in
/-- A named node around a comment is the root or below a named child around it. A token has no node
below it, so the child that leads to the node is named. -/
theorem exists_namedChild_of_isInside {t : Tree} (ht : ∀ v ∈ t.nodes, v.Orderly) {u : Tree}
    (hu : u ∈ t.nodes) (hnamed : u.isNamed = true) (huc : c.IsInside u) :
    u = t ∨ ∃ w ∈ t.namedChildren, c.IsInside w ∧ u ∈ w.nodes := by
  rcases Tree.mem_nodes_iff.mp hu with rfl | ⟨w, hw, huw⟩
  · exact .inl rfl
  · have hbelow : ∀ v ∈ w.nodes, v.Orderly := fun v hv =>
      ht v (Tree.mem_nodes_iff.mpr (.inr ⟨w, hw, hv⟩))
    refine .inr ⟨w, List.mem_filter.mpr ⟨hw, ?_⟩, isInside_of_mem_nodes hbelow huw huc, huw⟩
    rcases Tree.mem_nodes_iff.mp huw with rfl | ⟨v, hv, -⟩
    · exact hnamed
    · by_contra htoken
      have hkind : w.kind = .token := by simpa [Tree.isNamed] using htoken
      rw [(hbelow w w.mem_nodes_self).token hkind] at hv
      cases hv

/-- The walk ends at a node of the tree it begins with: at the deepest of the root and the
named nodes below it that are around the comment, with the nearest named children of
that node on both sides. -/
theorem exists_inside {t : Tree} (ht : ∀ v ∈ t.nodes, v.Orderly) (hclear : ∀ v ∈ t.nodes, c.Clear v) :
    ∃ u ∈ t.nodes, (u = t ∨ u.isNamed = true ∧ c.IsInside u) ∧
      (∀ v ∈ t.nodes, v = t ∨ v.isNamed = true ∧ c.IsInside v → u ∈ v.nodes) ∧
      inside c.span.start.offset c.span.stop.offset t = between c (some u) none u.namedChildren := by
  induction t using Tree.induction_children with
  | step t ih =>
    have hmem : ∀ w ∈ t.namedChildren, w ∈ t.children := fun w hw => List.mem_of_mem_filter hw
    have hnodes : ∀ w ∈ t.children, ∀ v ∈ w.nodes, v ∈ t.nodes := fun w hw v hv =>
      Tree.mem_nodes_iff.mpr (.inr ⟨w, hw, hv⟩)
    have hordered := (ht t t.mem_nodes_self).ordered.filter Tree.isNamed
    have hforward : ∀ w ∈ t.namedChildren, w.span.start.offset ≤ w.span.stop.offset := fun w hw =>
      (ht w (hnodes w (hmem w hw) w w.mem_nodes_self)).forward
    rw [inside_eq_scan]
    rcases scan_inside_or_between hc (some t) none hforward hordered
      (fun w hw => hclear w (hnodes w (hmem w hw) w w.mem_nodes_self)) with
      ⟨w, hw, hwc, hscan⟩ | ⟨hnone, hscan⟩
    · have hwt := hnodes w (hmem w hw)
      obtain ⟨u, huw, hu, hdeepest, hinside⟩ := ih w (hmem w hw) (fun v hv => ht v (hwt v hv))
        (fun v hv => hclear v (hwt v hv))
      refine ⟨u, hwt u huw, .inr ?_, ?_, hscan.trans hinside⟩
      · rcases hu with rfl | hu
        · exact ⟨List.of_mem_filter hw, hwc⟩
        · exact hu
      · rintro v hv (rfl | ⟨hvnamed, hvc⟩)
        · exact hwt u huw
        · rcases exists_namedChild_of_isInside ht hv hvnamed hvc with rfl | ⟨x, hx, hxc, hvx⟩
          · exact hwt u huw
          · obtain rfl := eq_of_isInside hc hordered hx hw hxc hwc
            exact hdeepest v hvx (.inr ⟨hvnamed, hvc⟩)
    · refine ⟨t, t.mem_nodes_self, .inl rfl, ?_, hscan⟩
      rintro v hv (rfl | ⟨hvnamed, hvc⟩)
      · exact v.mem_nodes_self
      · rcases exists_namedChild_of_isInside ht hv hvnamed hvc with rfl | ⟨x, hx, hxc, -⟩
        · exact v.mem_nodes_self
        · exact absurd hxc (hnone x hx)

end Surroundings

namespace Parsed

open Surroundings

variable {p : Parsed} {c : Comment}

/-- A root of an orderly source is a tree of orderly nodes. -/
theorem Orderly.of_mem_roots (h : p.Orderly) {root : Tree} (hroot : root ∈ p.roots) :
    ∀ v ∈ root.nodes, v.Orderly := fun v hv => h.nodes v (Tree.mem_nodesOfAll_of_mem hroot hv)

/-- The walk is inside a root that is around the comment, or among all roots if there is none. -/
theorem Orderly.of_eq (h : p.Orderly) (hc : c ∈ p.comments) :
    (∃ root ∈ p.roots, p.Encloses c root ∧
      Surroundings.of p c = inside c.span.start.offset c.span.stop.offset root) ∨
    (∀ root ∈ p.roots, ¬ p.Encloses c root) ∧
      Surroundings.of p c = between c none none p.roots := by
  have hroots : ∀ root ∈ p.roots, root ∈ Tree.nodesOfAll p.roots := fun root hroot =>
    Tree.mem_nodesOfAll_of_mem hroot root.mem_nodes_self
  have hscan := scan_inside_or_between (h.nonempty c hc) none none
    (fun root hroot => (h.nodes root (hroots root hroot)).forward) h.ordered
    (fun root hroot => h.clear c hc root (hroots root hroot))
  by_cases hwhole : ∃ root, p.roots = [root] ∧ root.kind = .program
  · obtain ⟨root, hroot, hkind⟩ := hwhole
    refine .inl ⟨root, by rw [hroot]; exact List.mem_singleton_self root, .inl ⟨hroot, hkind⟩, ?_⟩
    simp only [Surroundings.of, hroot, hkind, if_true]
  · have hof : Surroundings.of p c =
        scan c.span.start.offset c.span.stop.offset none none p.roots := by
      rw [← amongRoots_eq_scan, Surroundings.of]
      split
      · rename_i root hroot
        rw [if_neg fun hkind => hwhole ⟨root, hroot, hkind⟩, hroot]
      · rfl
    rw [hof]
    rcases hscan with ⟨root, hroot, hinside, hscan⟩ | ⟨hnone, hscan⟩
    · exact .inl ⟨root, hroot, .inr hinside, hscan⟩
    · refine .inr ⟨fun root hroot hencloses => ?_, hscan⟩
      rcases hencloses with hencloses | hinside
      · exact hwhole ⟨root, hencloses⟩
      · exact hnone root hroot hinside

/-- A root that is around a comment is the only one. -/
theorem Orderly.eq_of_encloses (h : p.Orderly) (hc : c ∈ p.comments) {root other : Tree}
    (hroot : root ∈ p.roots) (hother : other ∈ p.roots) (hrc : p.Encloses c root)
    (hoc : p.Encloses c other) : other = root := by
  rcases hrc with ⟨hone, -⟩ | hrc
  · rw [hone] at hother
    exact List.mem_singleton.mp hother
  · rcases hoc with ⟨hone, -⟩ | hoc
    · rw [hone] at hroot
      exact (List.mem_singleton.mp hroot).symm
    · exact eq_of_isInside (h.nonempty c hc) h.ordered hother hroot hoc hrc

/-- What is around a comment is the root around it, or a named node below that root. -/
theorem Orderly.mem_nodes_of_encloses (h : p.Orderly) (hc : c ∈ p.comments) {root v : Tree}
    (hroot : root ∈ p.roots) (hrc : p.Encloses c root) (hv : Placement.Reachable p.roots v)
    (hvc : p.Encloses c v) : v ∈ root.nodes ∧ (v = root ∨ v.isNamed = true ∧ c.IsInside v) := by
  have hself : v ∈ p.roots → v ∈ root.nodes ∧ (v = root ∨ v.isNamed = true ∧ c.IsInside v) := by
    intro hv
    obtain rfl := h.eq_of_encloses hc hroot hv hrc hvc
    exact ⟨v.mem_nodes_self, .inl rfl⟩
  by_cases hnamed : v.isNamed = true
  · rcases hvc with ⟨hone, -⟩ | hinside
    · exact hself (by rw [hone]; exact List.mem_singleton_self v)
    · have hmem := hv.mem
      rw [Tree.nodesOfAll_eq_flatMap] at hmem
      obtain ⟨other, hother, hvother⟩ := List.mem_flatMap.mp hmem
      have hoc := isInside_of_mem_nodes (h.of_mem_roots hother) hvother hinside
      obtain rfl := h.eq_of_encloses hc hroot hother hrc (.inr hoc)
      exact ⟨hvother, .inr ⟨hnamed, hinside⟩⟩
  · exact hself (hv.token (by simpa [Tree.isNamed] using hnamed))

/-- The walk of an orderly source ends at the deepest node around a comment, and finds the
nearest nodes on both sides. -/
theorem Orderly.nearest (h : p.Orderly) (hc : c ∈ p.comments) :
    (Surroundings.of p c).Nearest p c := by
  rcases h.of_eq hc with ⟨root, hroot, hencloses, hof⟩ | ⟨hnone, hof⟩
  · have horderly := h.of_mem_roots hroot
    have hmem := fun v hv => Tree.mem_nodesOfAll_of_mem (u := v) hroot hv
    obtain ⟨u, hu, hchosen, hdeepest, hinside⟩ := exists_inside (h.nonempty c hc) horderly
      fun v hv => h.clear c hc v (hmem v hv)
    rw [hof, hinside]
    refine ⟨?_, ?_, (Option.or_none).trans rfl, rfl⟩
    · rintro t ⟨⟩
      refine ⟨⟨hmem u hu, ?_⟩, ?_, ?_⟩
      · rcases hchosen with rfl | ⟨hnamed, -⟩
        · exact fun _ => hroot
        · intro hkind
          rw [Tree.isNamed, hkind] at hnamed
          cases hnamed
      · rcases hchosen with rfl | ⟨-, hinside⟩
        · exact hencloses
        · exact .inr hinside
      · intro v hv hvc
        obtain ⟨hvroot, hvchosen⟩ := h.mem_nodes_of_encloses hc hroot hencloses hv hvc
        exact hdeepest v hvroot hvchosen
    · refine ⟨fun hnone => ?_, fun hnone => absurd hencloses (hnone root hroot)⟩
      cases hnone
  · rw [hof]
    refine ⟨by simp [between], ?_, (Option.or_none).trans rfl, rfl⟩
    exact ⟨fun _ => hnone, fun _ => rfl⟩

end Parsed

/-! ## Roles -/

/-- A place that is on the side of the comment that its role says. -/
structure Placement.Beside (place : Placement) (c : Comment) : Prop where
  leading : place.role = .leading → c.isBefore place.node = true
  trailing : place.role = .trailing → c.isBehind place.node = true

namespace Placement

variable {p : Parsed} {c : Comment} {s : Surroundings} {place : Placement}

/-- A choice among the nearest nodes is beside the comment. -/
theorem beside_choose? {policy : TieBreak} (h : s.Nearest p c)
    (hplace : choose? policy c s = some place) : place.Beside c := by
  have hleading {t : Tree} (ht : s.following = some t) : (Placement.mk t .leading).Beside c := by
    rw [h.following] at ht
    exact ⟨fun _ => List.find?_some ht, by simp⟩
  have htrailing {t : Tree} (ht : s.previous = some t) : (Placement.mk t .trailing).Beside c := by
    rw [h.previous] at ht
    exact ⟨by simp, fun _ => List.of_mem_filter (List.mem_of_getLast? ht)⟩
  unfold choose? at hplace
  split at hplace
  · rename_i previous following hprevious hfollowing
    split at hplace
    · obtain rfl := Option.some.inj hplace
      exact htrailing hprevious
    · obtain rfl := Option.some.inj hplace
      exact hleading hfollowing
  · rename_i previous hprevious hfollowing
    obtain rfl := Option.some.inj hplace
    exact htrailing hprevious
  · rename_i following hprevious hfollowing
    obtain rfl := Option.some.inj hplace
    exact hleading hfollowing
  · obtain ⟨t, -, rfl⟩ := Option.map_eq_some_iff.mp hplace
    exact ⟨by simp, by simp⟩

/-- A comment that moves into a body behind it is in front of the members of the body. -/
theorem beside_intoBody {body : Tree} (hbody : body.Orderly) (h : c.isBefore body = true) :
    (intoBody body).Beside c := by
  unfold intoBody
  split
  · exact ⟨by simp, by simp⟩
  · rename_i member members hmembers
    have hmember : member ∈ body.namedChildren := by
      rw [hmembers]
      exact List.mem_cons_self
    have hstart := hbody.starts member (List.mem_of_mem_filter hmember)
    have hbefore := of_decide_eq_true h
    exact ⟨fun _ => decide_eq_true (hbefore.trans hstart), by simp⟩

/-- The body that a comment moves into is the one on its right. -/
theorem following_of_bodyAhead? {source : Source} {body : Tree}
    (h : bodyAhead? source c s = some body) : s.following = some body := by
  unfold bodyAhead? at h
  split at h
  · rename_i hfollowing
    split at h
    · rw [hfollowing]
      exact h
    · cases h
  · cases h

/-- The place of a comment of an orderly source is beside it. -/
theorem beside_of? {policy : TieBreak} (h : p.Orderly) (hc : c ∈ p.comments)
    (hplace : of? policy p c = some place) : place.Beside c := by
  have hnearest := h.nearest hc
  unfold of? at hplace
  dsimp only at hplace
  split at hplace
  · rename_i body hbody
    have hfollowing := following_of_bodyAhead? hbody
    rw [hnearest.following] at hfollowing
    have hmem := hnearest.mem_nodesOfAll (List.mem_of_find?_eq_some hfollowing)
    obtain rfl := Option.some.inj hplace
    exact beside_intoBody (h.nodes body hmem) (List.find?_some hfollowing)
  · exact beside_choose? hnearest hplace

end Placement

namespace Parsed

variable {p : Parsed} {policy : TieBreak} {as : Attachments}

/-- An attached comment is a comment of the source at its place. -/
theorem exists_of?_of_attach (h : p.attach policy = .ok as) {a : AttachedComment} (ha : a ∈ as) :
    ∃ c ∈ p.comments, ∃ place, Placement.of? policy p c = some place ∧ a = place.attach p.source c := by
  unfold attach at h
  generalize p.comments = cs at h ⊢
  induction cs generalizing as with
  | nil =>
    obtain rfl := Except.ok.inj h
    cases ha
  | cons c cs ih =>
    rw [List.mapM_cons] at h
    cases hplace : Placement.of? policy p c with
    | none => simp [attachComment, hplace, bind, Except.bind] at h
    | some place =>
      cases hrest : cs.mapM (p.attachComment policy) with
      | error e => simp [attachComment, hplace, hrest, bind, Except.bind] at h
      | ok rest =>
        have has : place.attach p.source c :: rest = as := by
          simpa [attachComment, hplace, hrest, bind, Except.bind, pure, Except.pure] using h
        rw [← has] at ha
        rcases List.mem_cons.mp ha with rfl | ha
        · exact ⟨c, List.mem_cons_self, place, hplace, rfl⟩
        · obtain ⟨d, hd, hattached⟩ := ih ha hrest
          exact ⟨d, List.mem_cons_of_mem _ hd, hattached⟩

/-- A source with a place for a comment has roots. -/
theorem roots_ne_nil_of_of? {c : Comment} {place : Placement}
    (h : Placement.of? policy p c = some place) : p.roots ≠ [] := by
  intro hroots
  have herror := attachComment_of_roots_eq_nil policy hroots c
  rw [attachComment, h] at herror
  cases herror

/-- The walk finds the deepest node around each comment of an orderly source, which is the deepest
named node unless the comment is in a token, and the nearest nodes on both sides. A comment
that is attached in front of a node ends before the node begins, one behind a node begins
after the node ends, and one inside a node is at a node without named children. -/
theorem attach_nearest (h : p.Orderly) :
    (∀ c ∈ p.comments, (Surroundings.of p c).Nearest p c ∧
      (c.OutsideTokens p.roots →
        ∀ t, (Surroundings.of p c).container = some t → p.DeepestNamed c t)) ∧
    ∀ policy as, p.attach policy = .ok as → ∀ a ∈ as, ∃ t, Placement.Reachable p.roots t ∧
      a.node = t.index ∧
      (a.role = .leading → a.comment.span.stop.offset ≤ t.span.start.offset) ∧
      (a.role = .trailing → t.span.stop.offset ≤ a.comment.span.start.offset) ∧
      (a.role = .dangling → t.namedChildren = []) := by
  refine ⟨fun c hc => ⟨h.nearest hc, fun hbare t ht => ?_⟩, fun policy as hattach a ha => ?_⟩
  · exact ((h.nearest hc).container t ht).named hbare
  · obtain ⟨c, hc, place, hplace, rfl⟩ := exists_of?_of_attach hattach ha
    have hbeside := Placement.beside_of? h hc hplace
    obtain ⟨place', hplace', hproper⟩ :=
      Placement.exists_of? policy p (roots_ne_nil_of_of? hplace) c
    obtain rfl := Option.some.inj (hplace'.symm.trans hplace)
    exact ⟨place'.node, hproper.reachable, rfl,
      fun hrole => of_decide_eq_true (hbeside.leading hrole),
      fun hrole => of_decide_eq_true (hbeside.trailing hrole), hproper.vacant⟩

/-- The comment behind the opening brace of a block is inside the block, in front of its
statement. -/
theorem attach_nearest_remarkedStatement :
    remarkedStatement.Orderly ∧ ∃ c ∈ remarkedStatement.comments, c.text = "// a" ∧
      c.OutsideTokens remarkedStatement.roots ∧
      (Surroundings.of remarkedStatement c).Nearest remarkedStatement c ∧
      (∃ t, (Surroundings.of remarkedStatement c).container = some t ∧ t.kind = .block ∧
        remarkedStatement.DeepestNamed c t) ∧
      (Surroundings.of remarkedStatement c).following.map Tree.kind = some .expressionStatement := by
  have horderly : remarkedStatement.Orderly := by decide
  have hmem : ⟨"// a", true, remarkedStatement.source.span 2 6⟩ ∈ remarkedStatement.comments :=
    List.mem_cons_self
  have hbare : Comment.OutsideTokens ⟨"// a", true, remarkedStatement.source.span 2 6⟩
      remarkedStatement.roots := by decide
  have hblock : (Surroundings.of remarkedStatement
      ⟨"// a", true, remarkedStatement.source.span 2 6⟩).container.map Tree.kind = some .block := by
    decide
  obtain ⟨t, ht, hkind⟩ := Option.map_eq_some_iff.mp hblock
  obtain ⟨hnearest, hnamed⟩ := (attach_nearest horderly).1 _ hmem
  exact ⟨horderly, _, hmem, rfl, hbare, hnearest, ⟨t, ht, hkind, hnamed hbare t ht⟩, by decide⟩

end Parsed

end JavaFormat
