import JavaFormat.Proofs.Comments.Nearest
import JavaFormat.Proofs.Syntax.Conversion
import JavaFormat.Proofs.Syntax.Fragment

/-!
# Spans after the conversion

A branch is given the span of the children that are left of it, so the comments at its
margins are outside of it, however deep inside they were. If the nodes of a concrete tree
lie inside one another and something is left of each, then so do the nodes of the tree it
becomes, every node begins with its first leaf and ends with its last one, and no comment
cuts a node. The attachment of comments relies on this (`orderly_of_ofConcrete`).
-/

namespace JavaFormat

open JavaFormat.Tree

namespace Tree

/-- A node that runs forward, with its children inside of it, one behind the other. -/
structure Nested (t : Tree) : Prop where
  forward : t.span.start.offset ≤ t.span.stop.offset
  starts : ∀ u ∈ t.children, t.span.start.offset ≤ u.span.start.offset
  stops : ∀ u ∈ t.children, u.span.stop.offset ≤ t.span.stop.offset
  ordered : t.children.Pairwise fun a b => a.span.stop.offset ≤ b.span.start.offset

/-- A tree begins with its first leaf and ends with its last one. -/
structure Ends (t first last : Tree) : Prop where
  opens : t.leaves.head? = some first
  closes : t.leaves.getLast? = some last
  start : t.span.start = first.span.start
  stop : t.span.stop = last.span.stop

/-- A node without children begins and ends with itself. -/
theorem ends_of_children_eq_nil {t : Tree} (h : t.children = []) : t.Ends t t := by
  have hleaves := leaves_of_children_eq_nil h
  exact ⟨by rw [hleaves]; rfl, by rw [hleaves]; rfl, rfl, rfl⟩

section Ends

variable {t first last : Tree}

/-- The leaf that a node begins with is a node of it. -/
theorem Ends.first_mem (h : t.Ends first last) : first ∈ t.nodes :=
  mem_nodes_of_mem_leaves (List.mem_of_mem_head? h.opens)

/-- The leaf that a node ends with is a node of it. -/
theorem Ends.last_mem (h : t.Ends first last) : last ∈ t.nodes :=
  mem_nodes_of_mem_leaves (List.mem_of_getLast? h.closes)

/-- A node that reaches from its first child to its last one begins with the first leaf of
the one and ends with the last leaf of the other. -/
theorem ends_of_children {left right l r : Tree} (hhead : t.children.head? = some left)
    (hlast : t.children.getLast? = some right) (hstart : t.span.start = left.span.start)
    (hstop : t.span.stop = right.span.stop) (hleft : left.Ends first l)
    (hright : right.Ends r last) : t.Ends first last where
  opens := by
    obtain ⟨rest, hrest⟩ := List.head?_eq_some_iff.mp hhead
    rw [leaves_eq_of_children (by simp [hrest]), hrest, List.flatMap_cons, List.head?_append,
      hleft.opens]
    rfl
  closes := by
    obtain ⟨rest, hrest⟩ := List.getLast?_eq_some_iff.mp hlast
    rw [leaves_eq_of_children (by simp [hrest]), hrest, List.flatMap_append,
      List.flatMap_singleton, List.getLast?_append, hright.closes]
    rfl
  start := hstart.trans hleft.start
  stop := hstop.trans hright.stop

end Ends

end Tree

/-- A comment is before a tree or behind its first leaf, and behind the tree or before its
last leaf. -/
structure Comment.Spares (c : Comment) (t first last : Tree) : Prop where
  front : c.isBefore t = true ∨ c.isBehind first = true
  back : c.isBehind t = true ∨ c.isBefore last = true

/-- A comment that spares a tree is between two of its leaves or outside of it. -/
theorem Comment.Spares.between_or_outside {c : Comment} {t first last : Tree}
    (h : c.Spares t first last) :
    (c.isBehind first = true ∧ c.isBefore last = true) ∨ c.isBefore t = true ∨
      c.isBehind t = true := by
  rcases h.front with hbefore | hfirst
  · exact .inr (.inl hbefore)
  · rcases h.back with hbehind | hlast
    · exact .inr (.inr hbehind)
    · exact .inl ⟨hfirst, hlast⟩

namespace Concrete

/-- A concrete node that runs forward, with the nodes directly below inside of it, one
behind the other. -/
structure Nested (c : Concrete) : Prop where
  forward : c.info.start ≤ c.info.stop
  starts : ∀ u ∈ c.children, c.info.start ≤ u.info.start
  stops : ∀ u ∈ c.children, u.info.stop ≤ c.info.stop
  ordered : c.children.Pairwise fun a b => a.info.stop ≤ b.info.start

/-- Whether a concrete node is nested can be decided. -/
instance (c : Concrete) : Decidable c.Nested :=
  decidable_of_iff
    (c.info.start ≤ c.info.stop ∧ (∀ u ∈ c.children, c.info.start ≤ u.info.start) ∧
      (∀ u ∈ c.children, u.info.stop ≤ c.info.stop) ∧
      c.children.Pairwise fun a b => a.info.stop ≤ b.info.start)
    ⟨fun ⟨h₁, h₂, h₃, h₄⟩ => ⟨h₁, h₂, h₃, h₄⟩, fun ⟨h₁, h₂, h₃, h₄⟩ => ⟨h₁, h₂, h₃, h₄⟩⟩

/-- A concrete node whose branch would not be empty. -/
def IsFilled (c : Concrete) : Prop := c.info.isClosed = false → c.parts ≠ []

/-- Whether a concrete node is filled can be decided. -/
instance (c : Concrete) : Decidable c.IsFilled :=
  inferInstanceAs (Decidable (c.info.isClosed = false → ¬c.parts = []))

/-- What was found in a stretch of the source: trees that stand one behind the other, with
comments that cut none of their nodes. -/
structure Spread (lo hi : Nat) (h : Harvest) : Prop where
  forward : lo ≤ hi
  nodes : ∀ t ∈ nodesOfAll h.trees, lo ≤ t.span.start.offset ∧ t.span.stop.offset ≤ hi
  comments : ∀ c ∈ h.comments, lo ≤ c.span.start.offset ∧ c.span.stop.offset ≤ hi
  ordered : h.trees.Pairwise fun a b => a.span.stop.offset ≤ b.span.start.offset
  nested : ∀ t ∈ nodesOfAll h.trees, t.Nested
  ends : ∀ t ∈ nodesOfAll h.trees, ∃ first last, t.Ends first last ∧
    ∀ c ∈ h.comments, c.Spares t first last

namespace Spread

variable {lo mid hi next : Nat} {h k : Harvest}

/-- Nothing is found in a stretch. -/
theorem nil (hforward : lo ≤ hi) : Spread lo hi ⟨[], [], next⟩ := by
  have hnone : nodesOfAll ([] : List Tree) = [] := rfl
  exact ⟨hforward, by simp [hnone], by simp, .nil, by simp [hnone], by simp [hnone]⟩

/-- What was found in a stretch was found in a longer one. -/
theorem widen (h : Spread mid hi k) (hlo : lo ≤ mid) : Spread lo hi k where
  forward := hlo.trans h.forward
  nodes t ht := ⟨hlo.trans (h.nodes t ht).1, (h.nodes t ht).2⟩
  comments c hc := ⟨hlo.trans (h.comments c hc).1, (h.comments c hc).2⟩
  ordered := h.ordered
  nested := h.nested
  ends := h.ends

/-- A comment is found. -/
theorem comment {source : Source} {found : Comment} (hfound : found.span = source.span lo hi)
    (hforward : lo ≤ hi) : Spread lo hi ⟨[], [found], next⟩ := by
  have hnone : nodesOfAll ([] : List Tree) = [] := rfl
  refine ⟨hforward, by simp [hnone], ?_, .nil, by simp [hnone], by simp [hnone]⟩
  rw [List.forall_mem_singleton, hfound]
  exact ⟨Nat.le_refl _, Nat.le_refl _⟩

/-- A token or a verbatim node is found. -/
theorem leaf (source : Source) (index : Nat) (kind : NodeKind) (field : Option String)
    (text : String) (hforward : lo ≤ hi) :
    Spread lo hi ⟨[.leaf ⟨index, kind, field, source.span lo hi⟩ text], [], next⟩ := by
  have hnodes (t : NodeInfo) : nodesOfAll [.leaf t text] = [.leaf t text] := rfl
  refine ⟨hforward, ?_, by simp, List.pairwise_singleton _ _, ?_, ?_⟩ <;>
    rw [hnodes, List.forall_mem_singleton]
  · exact ⟨Nat.le_refl _, Nat.le_refl _⟩
  · exact ⟨hforward, by simp [Tree.children], by simp [Tree.children], by simp [Tree.children]⟩
  · exact ⟨_, _, ends_of_children_eq_nil rfl, by simp⟩

/-- What was found in two stretches, one behind the other. A comment of one stretch is on one side
of all that was found in the other. -/
theorem append (h₁ : Spread lo mid h) (h₂ : Spread mid hi k) : Spread lo hi (h.append k) := by
  have hnodes : nodesOfAll (h.append k).trees = nodesOfAll h.trees ++ nodesOfAll k.trees := by
    simp only [Harvest.append, nodesOfAll_eq_flatMap, List.flatMap_append]
  have hlo := h₁.forward
  have hhi := h₂.forward
  refine ⟨hlo.trans hhi, ?_, ?_, ?_, ?_, ?_⟩
  · rw [hnodes, List.forall_mem_append]
    exact ⟨fun t ht => ⟨(h₁.nodes t ht).1, (h₁.nodes t ht).2.trans hhi⟩,
      fun t ht => ⟨hlo.trans (h₂.nodes t ht).1, (h₂.nodes t ht).2⟩⟩
  · rw [Harvest.append, List.forall_mem_append]
    exact ⟨fun c hc => ⟨(h₁.comments c hc).1, (h₁.comments c hc).2.trans hhi⟩,
      fun c hc => ⟨hlo.trans (h₂.comments c hc).1, (h₂.comments c hc).2⟩⟩
  · refine List.pairwise_append.mpr ⟨h₁.ordered, h₂.ordered, fun t ht u hu => ?_⟩
    have ht := h₁.nodes t (mem_nodesOfAll_of_mem ht t.mem_nodes_self)
    have hu := h₂.nodes u (mem_nodesOfAll_of_mem hu u.mem_nodes_self)
    exact ht.2.trans hu.1
  · rw [hnodes, List.forall_mem_append]
    exact ⟨h₁.nested, h₂.nested⟩
  · rw [hnodes, List.forall_mem_append]
    refine ⟨fun t ht => ?_, fun t ht => ?_⟩
    · obtain ⟨first, last, hends, hspares⟩ := h₁.ends t ht
      refine ⟨first, last, hends, List.forall_mem_append.mpr ⟨hspares, fun c hc => ?_⟩⟩
      have hc := (h₂.comments c hc).1
      have hfirst := (h₁.nodes first (mem_nodesOfAll_trans ht hends.first_mem)).2
      exact ⟨.inr (decide_eq_true (hfirst.trans hc)),
        .inl (decide_eq_true ((h₁.nodes t ht).2.trans hc))⟩
    · obtain ⟨first, last, hends, hspares⟩ := h₂.ends t ht
      refine ⟨first, last, hends, List.forall_mem_append.mpr ⟨fun c hc => ?_, hspares⟩⟩
      have hc := (h₁.comments c hc).2
      have hlast := (h₂.nodes last (mem_nodesOfAll_trans ht hends.last_mem)).1
      exact ⟨.inl (decide_eq_true (hc.trans (h₂.nodes t ht).1)),
        .inr (decide_eq_true (hc.trans hlast))⟩

/-- The spans of trees that stand one behind the other begin with that of the first. -/
theorem start_le_of_head? {ts : List Tree} {left : Tree}
    (hordered : ts.Pairwise fun a b => a.span.stop.offset ≤ b.span.start.offset)
    (hforward : ∀ t ∈ ts, t.span.start.offset ≤ t.span.stop.offset) (hhead : ts.head? = some left) :
    ∀ t ∈ ts, left.span.start.offset ≤ t.span.start.offset := by
  obtain ⟨rest, rfl⟩ := List.head?_eq_some_iff.mp hhead
  refine List.forall_mem_cons.mpr ⟨Nat.le_refl _, fun t ht => ?_⟩
  exact (hforward left List.mem_cons_self).trans ((List.pairwise_cons.mp hordered).1 t ht)

/-- The spans of trees that stand one behind the other end with that of the last. -/
theorem stop_le_of_getLast? {ts : List Tree} {right : Tree}
    (hordered : ts.Pairwise fun a b => a.span.stop.offset ≤ b.span.start.offset)
    (hforward : ∀ t ∈ ts, t.span.start.offset ≤ t.span.stop.offset)
    (hlast : ts.getLast? = some right) :
    ∀ t ∈ ts, t.span.stop.offset ≤ right.span.stop.offset := by
  obtain ⟨rest, rfl⟩ := List.getLast?_eq_some_iff.mp hlast
  have hright := hforward right (by simp)
  refine List.forall_mem_append.mpr ⟨fun t ht => ?_, by simp⟩
  exact ((List.pairwise_append.mp hordered).2.2 t ht right (by simp)).trans hright

/-- A branch with children reaches from the first one to the last one. -/
theorem exists_span_enclose (source : Source) (info : ConcreteInfo) (kind : NodeKind)
    (field : Option String) (hne : h.trees ≠ []) :
    ∃ left right, h.trees.head? = some left ∧ h.trees.getLast? = some right ∧
      (h.enclose source info kind field).span = ⟨left.span.start, right.span.stop⟩ := by
  obtain ⟨trees, comments, next⟩ := h
  cases trees with
  | nil => exact absurd rfl hne
  | cons t ts => exact ⟨t, _, rfl, List.getLast?_eq_some_getLast _, rfl⟩

/-- What was found below a node is put into a branch. -/
theorem enclose (h₁ : Spread lo hi h) (source : Source) (info : ConcreteInfo) (kind : NodeKind)
    (field : Option String) (hne : h.trees ≠ []) :
    Spread lo hi ⟨[h.enclose source info kind field], h.comments, h.next + 1⟩ := by
  obtain ⟨left, right, hhead, hlast, hspan⟩ := exists_span_enclose source info kind field hne
  generalize hbranch : h.enclose source info kind field = u at hspan ⊢
  have hchildren : u.children = h.trees := by rw [← hbranch]; rfl
  have hnodes : nodesOfAll [u] = nodesOfAll h.trees ++ [u] := by
    rw [← hbranch]
    simp [nodesOfAll, Harvest.enclose, Tree.nodes]
  have hstart : u.span.start = left.span.start := by rw [hspan]
  have hstop : u.span.stop = right.span.stop := by rw [hspan]
  have hmem : ∀ w ∈ h.trees, w ∈ nodesOfAll h.trees := fun w hw =>
    mem_nodesOfAll_of_mem hw w.mem_nodes_self
  have hleft := hmem left (List.mem_of_mem_head? hhead)
  have hright := hmem right (List.mem_of_getLast? hlast)
  have hforward : ∀ w ∈ h.trees, w.span.start.offset ≤ w.span.stop.offset := fun w hw =>
    (h₁.nested w (hmem w hw)).forward
  have hstarts : ∀ w ∈ h.trees, u.span.start.offset ≤ w.span.start.offset := by
    rw [hstart]
    exact start_le_of_head? h₁.ordered hforward hhead
  have hstops : ∀ w ∈ h.trees, w.span.stop.offset ≤ u.span.stop.offset := by
    rw [hstop]
    exact stop_le_of_getLast? h₁.ordered hforward hlast
  have hnested : u.Nested := by
    refine ⟨?_, by rwa [hchildren], by rwa [hchildren], by rw [hchildren]; exact h₁.ordered⟩
    have hmem := List.mem_of_getLast? hlast
    exact (hstarts right hmem).trans ((hforward right hmem).trans (hstops right hmem))
  obtain ⟨first, l, hends, hspares⟩ := h₁.ends left hleft
  obtain ⟨r, last, hends', hspares'⟩ := h₁.ends right hright
  have hends := ends_of_children (t := u) (by rw [hchildren]; exact hhead)
    (by rw [hchildren]; exact hlast) hstart hstop hends hends'
  refine ⟨h₁.forward, ?_, h₁.comments, List.pairwise_singleton _ _, ?_, ?_⟩ <;>
    rw [hnodes, List.forall_mem_append, List.forall_mem_singleton]
  · refine ⟨h₁.nodes, ?_, ?_⟩
    · rw [hstart]
      exact (h₁.nodes left hleft).1
    · rw [hstop]
      exact (h₁.nodes right hright).2
  · exact ⟨h₁.nested, hnested⟩
  · refine ⟨h₁.ends, first, last, hends, fun c hc => ⟨?_, ?_⟩⟩
    · rw [Comment.isBefore, hstart]
      exact (hspares c hc).front
    · rw [Comment.isBehind, hstop]
      exact (hspares' c hc).back

end Spread

/-! ## The conversion -/

section Harvest

variable {source : Source}

/-- A comment leaves no tree, and any other node one. -/
theorem length_trees_harvest {t : Concrete} {next : Nat} {h : Harvest}
    (hok : t.harvest source next = .ok h) :
    h.trees.length = ([t].filter (!·.info.isComment)).length := by
  obtain ⟨info, children⟩ := t
  cases yields_of_harvest hok with
  | comment hc _ => simp [Concrete.info, hc]
  | leaf hc _ _ _ => simp [Concrete.info, hc]
  | branch hc _ _ _ => simp [Concrete.info, hc]

/-- Every node that is no comment leaves one tree. -/
theorem length_trees_harvestAll {ts : List Concrete} {next : Nat} {h : Harvest}
    (hok : harvestAll source next ts = .ok h) :
    h.trees.length = (ts.filter (!·.info.isComment)).length := by
  induction ts generalizing next h with
  | nil =>
    rw [harvestAll] at hok
    obtain rfl := Except.ok.inj hok
    rfl
  | cons t ts ih =>
    obtain ⟨first, rest, hfirst, hrest, rfl⟩ := exists_harvests_of_cons hok
    rw [Harvest.append, List.length_append, length_trees_harvest hfirst, ih hrest,
      ← List.length_append, ← List.filter_append]
    rfl

mutual

/-- What is found in a tree whose nodes lie inside one another and are filled. -/
theorem spread_harvest : ∀ {t : Concrete} {next : Nat} {h : Harvest},
    (∀ c ∈ reachedOfAll [t], c.Nested ∧ c.IsFilled) → t.harvest source next = .ok h →
      Spread t.info.start t.info.stop h
  | .node info children, next, h, hreached, hok => by
    have hself : Concrete.node info children ∈ reachedOfAll [.node info children] := by
      simp [reachedOfAll, shownOfAll, shown]
    obtain ⟨hnested, hfilled⟩ := hreached _ hself
    cases yields_of_harvest hok with
    | comment hc hfound =>
      exact Spread.comment hfound.span hnested.forward
    | leaf hc hw hk hs =>
      exact Spread.leaf source _ _ _ _ hnested.forward
    | branch hc hw hk hbelow =>
      have hopen : info.isClosed = false := by simp [ConcreteInfo.isClosed, hc, hw]
      rw [reachedOfAll_of_not_isClosed children hopen] at hreached
      have hspread : Spread info.start info.stop _ :=
        spread_harvestAll (fun c hc => hreached c (List.mem_append_left _ hc)) hnested.forward
          hnested.starts hnested.stops hnested.ordered hbelow
      refine hspread.enclose source info _ info.field ?_
      have hparts := hfilled hopen
      rw [parts, Concrete.info, if_neg (by simp [hw])] at hparts
      rw [← List.length_pos_iff, length_trees_harvestAll hbelow, List.length_pos_iff]
      exact hparts

/-- What is found in trees that stand one behind the other. -/
theorem spread_harvestAll : ∀ {ts : List Concrete} {lo hi next : Nat} {h : Harvest},
    (∀ c ∈ reachedOfAll ts, c.Nested ∧ c.IsFilled) → lo ≤ hi →
      (∀ t ∈ ts, lo ≤ t.info.start) → (∀ t ∈ ts, t.info.stop ≤ hi) →
      ts.Pairwise (fun a b => a.info.stop ≤ b.info.start) →
      harvestAll source next ts = .ok h → Spread lo hi h
  | [], lo, hi, next, h, _, hforward, _, _, _, hok => by
    rw [harvestAll] at hok
    obtain rfl := Except.ok.inj hok
    exact Spread.nil hforward
  | t :: ts, lo, hi, next, h, hreached, _, hstarts, hstops, hordered, hok => by
    have hsplit : reachedOfAll (t :: ts) = reachedOfAll [t] ++ reachedOfAll ts :=
      reachedOfAll_append [t] ts
    rw [hsplit] at hreached
    obtain ⟨hstart, -⟩ := List.forall_mem_cons.mp hstarts
    obtain ⟨hstop, hstops⟩ := List.forall_mem_cons.mp hstops
    obtain ⟨hlater, hordered⟩ := List.pairwise_cons.mp hordered
    obtain ⟨first, rest, hfirst, hrest, rfl⟩ := exists_harvests_of_cons hok
    have hspread := spread_harvest (fun c hc => hreached c (List.mem_append_left _ hc)) hfirst
    have hspread' := spread_harvestAll (fun c hc => hreached c (List.mem_append_right _ hc)) hstop
      hlater hstops hordered hrest
    exact (hspread.widen hstart).append hspread'

end

end Harvest

section Convert

variable {source : Source} {t : Concrete} {whole : Tree} {comments : List Comment}

/-- What a tree whose nodes lie inside one another is converted to: everything that was found
below the root is inside of it, and the root is put around it. -/
theorem exists_spread_of_convert (hnested : ∀ c ∈ t :: reachedOfAll t.children, c.Nested)
    (hfilled : ∀ c ∈ reachedOfAll t.children, c.IsFilled)
    (hok : t.convert source = .ok (whole, comments)) :
    ∃ below kind, Spread t.info.start t.info.stop below ∧
      whole = below.enclose source t.info kind none ∧ comments.Perm below.comments := by
  obtain ⟨hroot, hnested⟩ := List.forall_mem_cons.mp hnested
  obtain ⟨below, kind, hbelow, -, hwhole, rfl⟩ := exists_harvest_of_convert hok
  refine ⟨below, kind, ?_, hwhole, Text.sort_perm _ _⟩
  exact spread_harvestAll (fun c hc => ⟨hnested c hc, hfilled c hc⟩) hroot.forward hroot.starts
    hroot.stops hroot.ordered hbelow

/-- The nodes of a converted tree begin and end with leaves and have their children inside, and
unless nothing is left of the root they are spared by the comments. -/
theorem exists_ends_of_convert (hnested : ∀ c ∈ t :: reachedOfAll t.children, c.Nested)
    (hfilled : ∀ c ∈ reachedOfAll t.children, c.IsFilled)
    (hok : t.convert source = .ok (whole, comments)) :
    ∀ u ∈ whole.nodes, u.Nested ∧ ∃ first last, u.Ends first last ∧
      (whole.children ≠ [] → ∀ c ∈ comments, c.Spares u first last) := by
  obtain ⟨below, kind, hspread, rfl, hperm⟩ := exists_spread_of_convert hnested hfilled hok
  by_cases hne : below.trees = []
  · intro u hu
    have hnone : (below.enclose source t.info kind none).children = [] := hne
    obtain rfl : u = below.enclose source t.info kind none := by
      simpa [Harvest.enclose, Tree.nodes, hne, nodesOfAll] using hu
    refine ⟨⟨?_, by simp [hnone], by simp [hnone], by simp [hnone]⟩, _, _,
      ends_of_children_eq_nil hnone, fun h => absurd hnone h⟩
    have hspan : (below.enclose source t.info kind none).span =
        source.span t.info.start t.info.stop := by
      rw [Harvest.enclose, hne]
      rfl
    rw [hspan]
    exact hspread.forward
  · have hall := hspread.enclose source t.info kind none hne
    have hnodes : nodesOfAll [below.enclose source t.info kind none] =
        (below.enclose source t.info kind none).nodes := by simp [nodesOfAll]
    intro u hu
    rw [← hnodes] at hu
    obtain ⟨first, last, hends, hspares⟩ := hall.ends u hu
    exact ⟨hall.nested u hu, first, last, hends, fun _ c hc => hspares c (hperm.mem_iff.mp hc)⟩

/-- If the nodes of a concrete tree lie inside one another and something is left of each but the
root, then the nodes of the tree that it is converted to begin with their first leaf and end with
their last one, and their children lie inside of them, one behind the other. Unless nothing
is left of the root, a comment is between the first and the last leaf of a node or outside
of the node. -/
theorem convert_spans (hnested : ∀ c ∈ t :: reachedOfAll t.children, c.Nested)
    (hfilled : ∀ c ∈ reachedOfAll t.children, c.IsFilled)
    (hok : t.convert source = .ok (whole, comments)) :
    ∀ u ∈ whole.nodes, u.Nested ∧ ∃ first last, u.Ends first last ∧
      (whole.children ≠ [] → ∀ c ∈ comments,
        (c.isBehind first = true ∧ c.isBefore last = true) ∨ c.isBefore u = true ∨
          c.isBehind u = true) := by
  intro u hu
  obtain ⟨hinside, first, last, hends, hspares⟩ := exists_ends_of_convert hnested hfilled hok u hu
  exact ⟨hinside, first, last, hends, fun hne c hc => (hspares hne c hc).between_or_outside⟩

/-- A comment is inside a node of the tree or outside of it. If nothing but comments is left of
the root, the root keeps its own span, with the comments inside. -/
theorem clear_of_convert (hnested : ∀ c ∈ t :: reachedOfAll t.children, c.Nested)
    (hfilled : ∀ c ∈ reachedOfAll t.children, c.IsFilled)
    (hok : t.convert source = .ok (whole, comments)) {c : Comment} (hc : c ∈ comments) {u : Tree}
    (hu : u ∈ whole.nodes) : c.Clear u := by
  have hspans := exists_ends_of_convert hnested hfilled hok
  by_cases hnone : whole.children = []
  · rcases mem_nodes_iff.mp hu with rfl | ⟨v, hv, -⟩
    · obtain ⟨below, kind, hspread, rfl, hperm⟩ := exists_spread_of_convert hnested hfilled hok
      have hspan : (below.enclose source t.info kind none).span =
          source.span t.info.start t.info.stop := by
        rw [Harvest.enclose, show below.trees = [] from hnone]
        rfl
      rw [Comment.Clear, Comment.IsInside, hspan]
      exact .inl (hspread.comments c (hperm.mem_iff.mp hc))
    · rw [hnone] at hv
      cases hv
  · obtain ⟨-, first, last, hends, hspares⟩ := hspans u hu
    rcases (hspares hnone c hc).between_or_outside with ⟨hfirst, hlast⟩ | hbefore | hbehind
    · have hforward := (hspans first (mem_nodes_trans hu hends.first_mem)).1.forward
      have hforward' := (hspans last (mem_nodes_trans hu hends.last_mem)).1.forward
      rw [Comment.Clear, Comment.IsInside, hends.start, hends.stop]
      exact .inl ⟨hforward.trans (of_decide_eq_true hfirst),
        (of_decide_eq_true hlast).trans hforward'⟩
    · exact .inr (.inr hbefore)
    · exact .inr (.inl hbehind)

/-- A comment is in no token of a program. -/
theorem not_isInside_of_convert (hnested : ∀ c ∈ t :: reachedOfAll t.children, c.Nested)
    (hfilled : ∀ c ∈ reachedOfAll t.children, c.IsFilled) (htype : t.info.type = "program")
    (hok : t.convert source = .ok (whole, comments))
    {c : Comment} (hc : c ∈ comments) (hnonempty : c.span.start.offset < c.span.stop.offset)
    {u : Tree} (hu : u ∈ whole.nodes) (hchildren : u.children = []) (hkind : u.kind = .token) :
    ¬c.IsInside u := by
  rintro ⟨hstart, hstop⟩
  have hne : whole.children ≠ [] := by
    intro hnone
    rcases mem_nodes_iff.mp hu with rfl | ⟨v, hv, -⟩
    · obtain ⟨below, kind, -, hname, rfl, -⟩ := exists_harvest_of_convert hok
      rw [htype] at hname
      obtain rfl : kind = .token := hkind
      cases hname
    · rw [hnone] at hv
      cases hv
  obtain ⟨hinside, first, last, hends, hspares⟩ := convert_spans hnested hfilled hok u hu
  have hleaves := leaves_of_children_eq_nil hchildren
  obtain rfl : u = first := by simpa [hleaves] using hends.opens
  obtain rfl : u = last := by simpa [hleaves] using hends.closes
  rcases hspares hne c hc with ⟨hbehind, -⟩ | hbefore | hbehind
  · exact absurd (of_decide_eq_true hbehind) (by omega)
  · exact absurd (of_decide_eq_true hbefore) (by omega)
  · exact absurd (of_decide_eq_true hbehind) (by omega)

end Convert

/-- The statement and its remark: the remark at the end of the program is outside of the branch
that the program becomes. -/
theorem convert_spans_remark :
    (∀ c ∈ remark :: reachedOfAll remark.children, c.Nested) ∧
      (∀ c ∈ reachedOfAll remark.children, c.IsFilled) ∧
      remark.convert remarkSource = .ok (remarkTree, [⟨"// b", true, remarkSource.span 3 7⟩]) ∧
      remarkTree.children ≠ [] ∧ remarkTree.span = remarkSource.span 0 2 ∧
      ∀ u ∈ remarkTree.nodes, u.Nested ∧ ∃ first last, u.Ends first last ∧
        ∀ c ∈ [(⟨"// b", true, remarkSource.span 3 7⟩ : Comment)],
          (c.isBehind first = true ∧ c.isBefore last = true) ∨ c.isBefore u = true ∨
            c.isBehind u = true := by
  have hnested : ∀ c ∈ remark :: reachedOfAll remark.children, c.Nested := by decide
  have hfilled : ∀ c ∈ reachedOfAll remark.children, c.IsFilled := by decide
  have hresult : remark.convert remarkSource =
      .ok (remarkTree, [⟨"// b", true, remarkSource.span 3 7⟩]) := by rfl
  have hchildren : remarkTree.children ≠ [] := List.cons_ne_nil _ _
  refine ⟨hnested, hfilled, hresult, hchildren, rfl, fun u hu => ?_⟩
  obtain ⟨hinside, first, last, hends, hspares⟩ := convert_spans hnested hfilled hresult u hu
  exact ⟨hinside, first, last, hends, hspares hchildren⟩

/-- A concrete tree that the attachment of comments can rely on: its nodes lie inside one
another, something is left of each but the root, comments are not empty, and nothing that the
grammar names is called a token. -/
structure IsOrderly (t : Concrete) : Prop where
  nested : ∀ c ∈ t :: reachedOfAll t.children, c.Nested
  filled : ∀ c ∈ reachedOfAll t.children, c.IsFilled
  nonempty : ∀ c ∈ t.reached, c.info.isComment = true → c.info.start < c.info.stop
  named : ∀ c ∈ t.reached, c.info.kind? = some .token → c.info.named = false

/-- What has become a token or a verbatim node has no children. -/
theorem Becomes.children_eq_nil {source : Source} {c : Concrete} {t : Tree}
    (h : Becomes source c t) (hw : c.info.isWritten = true) : t.children = [] := by
  have htext := h.text
  rw [if_pos hw] at htext
  obtain ⟨s, -, hs⟩ := htext
  cases t with
  | leaf info text => rfl
  | branch info ts => cases hs

/-- What is related to an element of a list. -/
theorem exists_of_mem_forall₂ {α β : Type} {R : α → β → Prop} {as : List α} {bs : List β}
    (h : List.Forall₂ R as bs) {b : β} (hb : b ∈ bs) : ∃ a ∈ as, R a b := by
  induction h with
  | nil => cases hb
  | cons hab _ ih =>
    rcases List.mem_cons.mp hb with rfl | hb
    · exact ⟨_, List.mem_cons_self, hab⟩
    · obtain ⟨a, ha, hrelated⟩ := ih hb
      exact ⟨a, List.mem_cons_of_mem _ ha, hrelated⟩

end Concrete

namespace Parsed

open Concrete

variable {source : Source} {entry : EntryPoint} {t : Concrete} {p : Parsed}

/-- The roots of a source are a node of its tree, or the children of one without the braces. -/
theorem exists_of_roots? {whole : Tree} {roots : List Tree} {rootParent : Option NodeKind}
    (h : roots? whole entry = some (roots, rootParent)) :
    (∃ t ∈ whole.nodes, roots = [t]) ∨ ∃ t ∈ whole.nodes, roots = withoutBraces t.children := by
  have hbodies : ∀ body, scaffoldBody? whole = some body → body ∈ whole.nodes := by
    intro body hbody
    obtain ⟨declaration, hdeclaration, hbody⟩ := Option.bind_eq_some_iff.mp hbody
    exact (mem_nodes_of_firstOf? (mem_nodes_of_firstOf? whole.mem_nodes_self hdeclaration).1 hbody).1
  cases entry with
  | compilationUnit =>
    obtain ⟨rfl, -⟩ := Prod.mk.inj (Option.some.inj h)
    exact .inl ⟨whole, whole.mem_nodes_self, rfl⟩
  | classBodyDeclarations =>
    obtain ⟨body, hbody, hroots⟩ := Option.bind_eq_some_iff.mp h
    obtain ⟨rfl, -⟩ := Prod.mk.inj (Option.some.inj hroots)
    exact .inr ⟨body, hbodies body hbody, rfl⟩
  | blockStatements =>
    obtain ⟨body, hbody, hrest⟩ := Option.bind_eq_some_iff.mp h
    obtain ⟨method, hmethod, hrest⟩ := Option.bind_eq_some_iff.mp hrest
    obtain ⟨block, hblock, hroots⟩ := Option.bind_eq_some_iff.mp hrest
    obtain ⟨rfl, -⟩ := Prod.mk.inj (Option.some.inj hroots)
    have hmem := (mem_nodes_of_firstOf? (hbodies body hbody) hmethod).1
    exact .inr ⟨block, (mem_nodes_of_firstOf? hmem hblock).1, rfl⟩
  | expression =>
    obtain ⟨body, hbody, hrest⟩ := Option.bind_eq_some_iff.mp h
    obtain ⟨field, hfield, hrest⟩ := Option.bind_eq_some_iff.mp hrest
    obtain ⟨declarator, hdeclarator, hrest⟩ := Option.bind_eq_some_iff.mp hrest
    obtain ⟨value, hvalue, hroots⟩ := Option.bind_eq_some_iff.mp hrest
    obtain ⟨rfl, -⟩ := Prod.mk.inj (Option.some.inj hroots)
    have hmem := (mem_nodes_of_firstOf? (hbodies body hbody) hfield).1
    have hmem' := (mem_nodes_of_firstOf? hmem hdeclarator).1
    have hchild := Tree.mem_nodes_of_mem_children (List.mem_of_find?_eq_some hvalue)
    exact .inl ⟨value, Tree.mem_nodes_trans hmem' hchild, rfl⟩

/-- What a source is read as has come from its concrete tree. -/
theorem convert_of_ofConcrete (h : ofConcrete source entry t = .ok p) :
    t.convert source = .ok (p.whole, p.comments) := by
  unfold ofConcrete at h
  split at h
  · cases h
  · cases hconvert : t.convert source with
    | error e =>
      rw [hconvert] at h
      cases h
    | ok converted =>
      rw [hconvert] at h
      cases hroots : roots? converted.1 entry with
      | none =>
        simp only [bind, Except.bind, hroots] at h
        cases h
      | some found =>
        simp only [bind, Except.bind, hroots] at h
        cases h
        rfl

/-- A source that is read from a concrete tree whose nodes lie inside one another is fit for the
attachment of comments, and none of its tokens holds a comment. -/
theorem orderly_of_ofConcrete (hnamed : t.info.named = true) (htype : t.info.type = "program")
    (ht : t.IsOrderly) (h : ofConcrete source entry t = .ok p) :
    p.Orderly ∧ ∀ c ∈ p.comments, c.OutsideTokens (nodesOfAll p.roots) := by
  have hconvert := convert_of_ofConcrete h
  have hspans := exists_ends_of_convert ht.nested ht.filled hconvert
  have hflattened : t.Flattened source p.whole p.comments := by
    obtain ⟨info, children⟩ := t
    exact (flattened_of_convert hnamed htype hconvert).1
  obtain ⟨hmem, hordered⟩ : (∀ u ∈ nodesOfAll p.roots, u ∈ p.whole.nodes) ∧
      p.roots.Pairwise fun a b => a.span.stop.offset ≤ b.span.start.offset := by
    rcases exists_of_roots? (roots?_of_ofConcrete h) with ⟨v, hv, hroots⟩ | ⟨v, hv, hroots⟩
    · rw [hroots]
      exact ⟨fun u hu => mem_nodes_trans hv (by simpa [nodesOfAll] using hu),
        List.pairwise_singleton _ _⟩
    · rw [hroots]
      refine ⟨fun u hu => ?_, (hspans v hv).1.ordered.filter _⟩
      rw [nodesOfAll_eq_flatMap] at hu
      obtain ⟨w, hw, hu⟩ := List.mem_flatMap.mp hu
      have hchild := mem_nodes_of_mem_children (List.mem_of_mem_filter hw)
      exact mem_nodes_trans (mem_nodes_trans hv hchild) hu
  have hnonempty : ∀ c ∈ p.comments, c.span.start.offset < c.span.stop.offset := by
    intro c hc
    obtain ⟨found, hremarks, hfound⟩ := hflattened.remarks
    obtain ⟨d, hd, hremark⟩ := exists_of_mem_forall₂ hremarks (hfound.mem_iff.mp hc)
    rw [hremark.span]
    exact ht.nonempty d (List.mem_of_mem_filter hd) (List.mem_filter.mp hd).2
  have htoken : ∀ u ∈ nodesOfAll p.roots, u.kind = .token → u.children = [] := by
    intro u hu hkind
    obtain ⟨c, hc, hbecomes⟩ := exists_of_mem_forall₂ hflattened.nodes (hmem u hu)
    have hanonymous := ht.named c (List.mem_of_mem_filter hc) (hkind ▸ hbecomes.kind)
    exact hbecomes.children_eq_nil (by simp [ConcreteInfo.isWritten, hanonymous])
  refine ⟨⟨hordered, fun u hu => ?_, hnonempty, fun c hc u hu =>
    clear_of_convert ht.nested ht.filled hconvert hc (hmem u hu)⟩, fun c hc u hu hkind => ?_⟩
  · obtain ⟨hnested, -⟩ := hspans u (hmem u hu)
    exact ⟨hnested.forward, hnested.starts, hnested.stops, hnested.ordered, htoken u hu⟩
  · exact not_isInside_of_convert ht.nested ht.filled htype hconvert hc (hnonempty c hc)
      (hmem u hu) (htoken u hu hkind) hkind

end Parsed

end JavaFormat
