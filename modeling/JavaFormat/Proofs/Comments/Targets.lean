import JavaFormat.Proofs.Comments.Nearest
import Mathlib.Data.List.TakeWhile

/-!
# What comments are put to

Below the roots, the walk for a comment looks at named nodes only. It begins with all the
roots, and those of a fragment may be tokens, such as a semicolon among the members of a
class. So a comment is put to a token exactly if the root that it is in, or that is chosen
among its neighbours if it is in none, is a token.
-/

namespace JavaFormat

/-- The root that a comment is put to or below: the first that does not end in front of
it, if that does not begin behind it, and else the chosen one of the two around it. -/
def Parsed.rootOf? (policy : TieBreak) (p : Parsed) (c : Comment) : Option Tree :=
  let left := (p.roots.takeWhile c.isBehind).getLast?
  match (p.roots.dropWhile c.isBehind).head? with
  | some right =>
    if c.isBefore right then (Placement.choose? policy c ⟨none, left, some right⟩).map (·.node)
    else some right
  | none => left

/-- A node below another one. -/
def Tree.IsBelow (t u : Tree) : Prop := ∃ v ∈ t.children, u ∈ v.nodes

/-- A node below a node of a tree is a node of the tree. -/
theorem Tree.IsBelow.mem_nodes {t u : Tree} (h : t.IsBelow u) : u ∈ t.nodes :=
  Tree.mem_nodes_iff.mpr (.inr h)

namespace Surroundings

/-- The surroundings of a comment inside a node: the neighbours are named nodes below it, and
so is the container, unless it is the node itself. -/
structure Below (root : Tree) (s : Surroundings) : Prop where
  container : ∀ t ∈ s.container, t ∈ root.nodes ∧ (t = root ∨ t.isNamed = true)
  previous : ∀ t ∈ s.previous, root.IsBelow t ∧ t.isNamed = true
  following : ∀ t ∈ s.following, root.IsBelow t ∧ t.isNamed = true

variable {start stop : Nat} {root : Tree} {s : Surroundings}

/-- What is inside a named child is inside the node. -/
theorem Below.of_child {t : Tree} (ht : t ∈ root.namedChildren) (h : s.Below t) : s.Below root := by
  obtain ⟨hchild, hnamed⟩ := List.mem_filter.mp ht
  have hlift : ∀ u, t.IsBelow u → root.IsBelow u := fun u hu => ⟨t, hchild, hu.mem_nodes⟩
  refine ⟨fun u hu => ?_, fun u hu => ?_, fun u hu => ?_⟩
  · obtain ⟨hmem, rfl | hu⟩ := h.container u hu
    · exact ⟨Tree.mem_nodes_of_mem_children hchild, .inr hnamed⟩
    · exact ⟨Tree.mem_nodes_iff.mpr (.inr ⟨t, hchild, hmem⟩), .inr hu⟩
  · exact ⟨hlift u (h.previous u hu).1, (h.previous u hu).2⟩
  · exact ⟨hlift u (h.following u hu).1, (h.following u hu).2⟩

/-- The walk among the last named children of a node stays below it, if it does in each. -/
theorem below_scan (ih : ∀ t ∈ root.namedChildren, (inside start stop t).Below t)
    {previous : Option Tree} {ts : List Tree} (hts : ∀ t ∈ ts, t ∈ root.namedChildren)
    (hprevious : ∀ t ∈ previous, t ∈ root.namedChildren) :
    (scan start stop (some root) previous ts).Below root := by
  have hcontainer : ∀ t ∈ some root, t ∈ root.nodes ∧ (t = root ∨ t.isNamed = true) := by
    rintro t ⟨⟩
    exact ⟨root.mem_nodes_self, .inl rfl⟩
  have hnamed : ∀ t ∈ root.namedChildren, root.IsBelow t ∧ t.isNamed = true := fun t ht =>
    ⟨⟨t, List.mem_of_mem_filter ht, t.mem_nodes_self⟩, List.of_mem_filter ht⟩
  induction ts generalizing previous with
  | nil => exact ⟨hcontainer, fun t ht => hnamed t (hprevious t ht), by simp [scan]⟩
  | cons t ts ih' =>
    obtain ⟨ht, hts⟩ := List.forall_mem_cons.mp hts
    have hself : ∀ u ∈ some t, u ∈ root.namedChildren := by
      rintro u ⟨⟩
      exact ht
    rw [scan]
    split
    · exact ih' hts hself
    · split
      · exact ⟨hcontainer, fun u hu => hnamed u (hprevious u hu), fun u hu => hnamed u (hself u hu)⟩
      · exact (ih t ht).of_child ht

/-- The walk inside a node stays below it. -/
theorem below_inside (start stop : Nat) (root : Tree) : (inside start stop root).Below root := by
  induction root using Tree.induction_children with
  | step root ih =>
    rw [inside_eq_scan]
    exact below_scan (fun t ht => ih t (List.mem_of_mem_filter ht)) (fun t ht => ht) (by simp)

/-- The walk among the roots goes past those in front of the comment. -/
theorem scan_eq_of_roots (c : Comment) (previous : Option Tree) (ts : List Tree) :
    scan c.span.start.offset c.span.stop.offset none previous ts =
      match (ts.dropWhile c.isBehind).head? with
      | some right =>
        if c.isBefore right then
          ⟨none, (ts.takeWhile c.isBehind).getLast?.or previous, some right⟩
        else inside c.span.start.offset c.span.stop.offset right
      | none => ⟨none, (ts.takeWhile c.isBehind).getLast?.or previous, none⟩ := by
  induction ts generalizing previous with
  | nil => rfl
  | cons t ts ih =>
    by_cases hbehind : c.isBehind t = true
    · have hlast : (t :: ts.takeWhile c.isBehind).getLast?.or previous =
          (ts.takeWhile c.isBehind).getLast?.or (some t) := by
        rw [List.getLast?_cons]
        cases (ts.takeWhile c.isBehind).getLast? <;> rfl
      rw [scan, if_pos (of_decide_eq_true hbehind), ih, List.takeWhile_cons_of_pos hbehind,
        List.dropWhile_cons_of_pos hbehind, hlast]
    · rw [scan, if_neg fun h => hbehind (decide_eq_true h), List.takeWhile_cons_of_neg hbehind,
        List.dropWhile_cons_of_neg hbehind]
      simp [Comment.isBefore]

end Surroundings

namespace Placement

open Surroundings

variable {source : Source} {policy : TieBreak} {c : Comment} {root : Tree} {place : Placement}

/-- The place among surroundings. -/
def amid? (source : Source) (policy : TieBreak) (c : Comment) (s : Surroundings) :
    Option Placement :=
  match bodyAhead? source c s with
  | some body => some (intoBody body)
  | none => choose? policy c s

/-- A choice is behind the left neighbour or in front of the right one, or inside the container
if there are none. -/
theorem of_choose? {s : Surroundings} (h : choose? policy c s = some place) :
    s.previous = some place.node ∧ place.role = .trailing ∨
      s.following = some place.node ∧ place.role = .leading ∨
      s.previous = none ∧ s.following = none ∧ s.container = some place.node ∧
        place.role = .dangling := by
  unfold choose? at h
  split at h
  · rename_i previous following hprevious hfollowing
    split at h
    · obtain rfl := Option.some.inj h
      exact .inl ⟨hprevious, rfl⟩
    · obtain rfl := Option.some.inj h
      exact .inr (.inl ⟨hfollowing, rfl⟩)
  · rename_i previous hprevious _
    obtain rfl := Option.some.inj h
    exact .inl ⟨hprevious, rfl⟩
  · rename_i following _ hfollowing
    obtain rfl := Option.some.inj h
    exact .inr (.inl ⟨hfollowing, rfl⟩)
  · rename_i hprevious hfollowing
    obtain ⟨t, ht, rfl⟩ := Option.map_eq_some_iff.mp h
    exact .inr (.inr ⟨hprevious, hfollowing, ht, rfl⟩)

/-- The node that a comment is put to in a body is the body or a named child of it. -/
theorem intoBody_mem_and_isNamed {body : Tree} (hnamed : body.isNamed = true) :
    (intoBody body).node ∈ body.nodes ∧ (intoBody body).node.isNamed = true := by
  unfold intoBody
  split
  · exact ⟨body.mem_nodes_self, hnamed⟩
  · rename_i member members hmembers
    have hmember : member ∈ body.namedChildren := by
      rw [hmembers]
      exact List.mem_cons_self
    obtain ⟨hchild, hnamed⟩ := List.mem_filter.mp hmember
    exact ⟨Tree.mem_nodes_of_mem_children hchild, hnamed⟩

/-- A comment inside a root with named children is put to a named node. -/
theorem amid?_inside_isNamed (start stop : Nat) (hne : root.namedChildren ≠ [])
    (h : amid? source policy c (inside start stop root) = some place) :
    place.node ∈ root.nodes ∧ place.node.isNamed = true := by
  have hbelow := below_inside start stop root
  have hfair := fair_inside start stop root (Reachable.of_root (List.mem_singleton_self root))
  unfold amid? at h
  split at h
  · rename_i body hbody
    obtain ⟨hmem, hnamed⟩ := hbelow.following body (following_of_bodyAhead? hbody)
    obtain rfl := Option.some.inj h
    obtain ⟨hnode, hnamed⟩ := intoBody_mem_and_isNamed hnamed
    exact ⟨Tree.mem_nodes_trans hmem.mem_nodes hnode, hnamed⟩
  · rcases of_choose? h with ⟨hprevious, -⟩ | ⟨hfollowing, -⟩ |
      ⟨hprevious, hfollowing, hcontainer, -⟩
    · obtain ⟨hmem, hnamed⟩ := hbelow.previous _ hprevious
      exact ⟨hmem.mem_nodes, hnamed⟩
    · obtain ⟨hmem, hnamed⟩ := hbelow.following _ hfollowing
      exact ⟨hmem.mem_nodes, hnamed⟩
    · obtain ⟨hmem, hroot | hnamed⟩ := hbelow.container _ hcontainer
      · have hvacant := hfair.vacant hprevious hfollowing _ hcontainer
        rw [hroot] at hvacant
        exact absurd hvacant hne
      · exact ⟨hmem, hnamed⟩

/-- A comment inside a root is put to a named node, unless the root is a token with nothing
named below. -/
theorem amid?_inside (start stop : Nat)
    (h : amid? source policy c (inside start stop root) = some place) :
    place.node ∈ root.nodes ∧
      (place.node.kind = .token ↔ root.kind = .token ∧ root.namedChildren = []) := by
  by_cases hnone : root.namedChildren = []
  · rw [inside_eq_scan, hnone, scan] at h
    obtain rfl := Option.some.inj h
    simp [root.mem_nodes_self, hnone]
  · obtain ⟨hmem, hnamed⟩ := amid?_inside_isNamed start stop hnone h
    have hkind : place.node.kind ≠ .token := by simpa [Tree.isNamed] using hnamed
    simp [hmem, hkind, hnone]

/-- A comment that is in no root does not move into a body. -/
theorem amid?_outside (left right : Option Tree) :
    amid? source policy c ⟨none, left, right⟩ = choose? policy c ⟨none, left, right⟩ := by
  cases right <;> rfl

end Placement

namespace Parsed

open Surroundings Placement

variable {p : Parsed} {policy : TieBreak} {as : Attachments}

/-- A single root is the one that every comment is put to or below. -/
theorem rootOf?_of_roots_eq_singleton {root : Tree} (hroots : p.roots = [root]) (c : Comment) :
    p.rootOf? policy c = some root := by
  unfold rootOf?
  rw [hroots]
  by_cases hbehind : c.isBehind root = true
  · rw [List.takeWhile_cons_of_pos hbehind, List.dropWhile_cons_of_pos hbehind]
    rfl
  · rw [List.takeWhile_cons_of_neg hbehind, List.dropWhile_cons_of_neg hbehind]
    by_cases hbefore : c.isBefore root = true <;> simp [choose?, hbefore]

/-- The surroundings of a comment are found among all roots, unless the only one is a compilation
unit. -/
theorem of_eq_scan (hroots : ∀ root, p.roots = [root] → root.kind ≠ .program) (c : Comment) :
    Surroundings.of p c = scan c.span.start.offset c.span.stop.offset none none p.roots := by
  rw [← amongRoots_eq_scan, Surroundings.of]
  split
  · rename_i root hroot
    rw [if_neg (hroots root hroot), hroot]
  · rfl

/-- The root in front of a comment. -/
theorem mem_and_isBehind_of_left {c : Comment} {t : Tree}
    (h : (p.roots.takeWhile c.isBehind).getLast? = some t) : t ∈ p.roots ∧ c.isBehind t = true := by
  have hmem := List.mem_of_getLast? h
  exact ⟨(List.takeWhile_sublist _).subset hmem, List.mem_takeWhile_imp hmem⟩

/-- A comment is put to a node of the root that it is in, or that is chosen among its neighbours
if it is in none. The node is a token exactly if the root is, and the comment is outside of it or
nothing named is below it. -/
theorem attach_token_iff (h : p.attach policy = .ok as) :
    ∀ a ∈ as, ∃ root ∈ p.roots, p.rootOf? policy a.comment = some root ∧
      ∃ t ∈ root.nodes, a.node = t.index ∧
        (t.kind = .token ↔ root.kind = .token ∧ (a.comment.isBehind root = true ∨
          a.comment.isBefore root = true ∨ root.namedChildren = [])) := by
  intro a ha
  obtain ⟨c, -, place, hplace, rfl⟩ := exists_of?_of_attach h ha
  change amid? p.source policy c (Surroundings.of p c) = some place at hplace
  change ∃ root ∈ p.roots, p.rootOf? policy c = some root ∧ ∃ t ∈ root.nodes,
    place.node.index = t.index ∧ (t.kind = .token ↔ root.kind = .token ∧ (c.isBehind root = true ∨
      c.isBefore root = true ∨ root.namedChildren = []))
  by_cases hunit : ∃ root, p.roots = [root] ∧ root.kind = .program
  · obtain ⟨root, hroots, hkind⟩ := hunit
    simp only [Surroundings.of, hroots, hkind, if_true] at hplace
    obtain ⟨hmem, htoken⟩ := amid?_inside _ _ hplace
    refine ⟨root, by simp [hroots], rootOf?_of_roots_eq_singleton hroots c, _, hmem, rfl, ?_⟩
    simpa [hkind] using htoken
  · have hfragment : ∀ root, p.roots = [root] → root.kind ≠ .program := fun root hroots hkind =>
      hunit ⟨root, hroots, hkind⟩
    rw [of_eq_scan hfragment, scan_eq_of_roots, Option.or_none] at hplace
    have hright := List.head?_dropWhile_not c.isBehind p.roots
    unfold rootOf?
    cases hafter : (p.roots.dropWhile c.isBehind).head? with
    | none =>
      simp only [hafter, amid?_outside] at hplace
      rcases of_choose? hplace with ⟨hleft, -⟩ | ⟨hnone, -⟩ | ⟨-, -, hnone, -⟩
      · obtain ⟨hmem, hbehind⟩ := mem_and_isBehind_of_left hleft
        exact ⟨place.node, hmem, hleft, place.node, place.node.mem_nodes_self, rfl, by simp [hbehind]⟩
      · cases hnone
      · cases hnone
    | some right =>
      rw [hafter] at hright
      have hmem : right ∈ p.roots :=
        (List.dropWhile_sublist _).subset (List.mem_of_mem_head? hafter)
      by_cases hbefore : c.isBefore right = true
      · simp only [hafter, hbefore, if_true, amid?_outside] at hplace
        simp only [hbefore, if_true, hplace, Option.map_some]
        rcases of_choose? hplace with ⟨hleft, -⟩ | ⟨hfollowing, -⟩ | ⟨-, hnone, -⟩
        · obtain ⟨hmem, hbehind⟩ := mem_and_isBehind_of_left hleft
          exact ⟨place.node, hmem, rfl, place.node, place.node.mem_nodes_self, rfl, by simp [hbehind]⟩
        · obtain rfl := Option.some.inj hfollowing
          exact ⟨place.node, hmem, rfl, place.node, place.node.mem_nodes_self, rfl, by simp [hbefore]⟩
        · cases hnone
      · simp only [hafter, hbefore] at hplace
        obtain ⟨hnode, htoken⟩ := amid?_inside _ _ hplace
        refine ⟨right, hmem, by simp [hbefore], place.node, hnode, rfl, ?_⟩
        simpa [hright, hbefore] using htoken

/-- A semicolon among the members of a class with a comment behind it, and a field. -/
def remarkedSemicolon : Parsed :=
  let source := Source.ofText "; // c\nint b;"
  let field := .branch ⟨5, .fieldDeclaration, none, source.span 7 13⟩ [
    .leaf ⟨1, .integralType, none, source.span 7 10⟩ "int",
    .branch ⟨3, .variableDeclarator, none, source.span 11 12⟩ [
      .leaf ⟨2, .identifier, none, source.span 11 12⟩ "b"],
    .leaf ⟨4, .token, none, source.span 12 13⟩ ";"]
  let semicolon := .leaf ⟨0, .token, none, source.span 0 1⟩ ";"
  let body := .branch ⟨6, .classBody, none, source.span 0 13⟩ [semicolon, field]
  ⟨body, [semicolon, field], some .classBody, [⟨"// c", true, source.span 2 6⟩], source⟩

/-- The comment is put behind the semicolon, although a field, which is named, stands behind the
comment. -/
theorem attach_token_iff_remarkedSemicolon :
    ∃ a, remarkedSemicolon.attach .trailing = .ok [a] ∧ a.role = .trailing ∧
      ∃ root ∈ remarkedSemicolon.roots,
        remarkedSemicolon.rootOf? .trailing a.comment = some root ∧
          ∃ t ∈ root.nodes, a.node = t.index ∧ t.kind = .token := by
  have hattach : remarkedSemicolon.attach .trailing =
      .ok [⟨⟨"// c", true, remarkedSemicolon.source.span 2 6⟩, .trailing, 0, 0, 0, false, true⟩] := by
    rfl
  obtain ⟨root, hroot, hchosen, t, ht, hnode, htoken⟩ := attach_token_iff hattach _
    (List.mem_singleton_self _)
  refine ⟨_, hattach, rfl, root, hroot, hchosen, t, ht, hnode, htoken.mpr ?_⟩
  obtain rfl := Option.some.inj hchosen
  decide

end Parsed

end JavaFormat
