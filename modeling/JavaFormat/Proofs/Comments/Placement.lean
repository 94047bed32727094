import JavaFormat.Comments.Placement
import JavaFormat.Proofs.Syntax.Shape

/-!
# Every comment finds a place

The nodes around a comment are nodes of the roots, and the neighbours among them are
named unless they are roots. A comment is put inside a node only where no neighbour
was found, and then the node has no named child: `Surroundings.Fair` is the invariant
of the walk down the roots that shows it.
-/

namespace JavaFormat

/-- A node that a comment may be put to: one of the roots, or a named node below
them. -/
structure Placement.Reachable (roots : List Tree) (t : Tree) : Prop where
  mem : t ∈ Tree.nodesOfAll roots
  token : t.kind = .token → t ∈ roots

/-- A place where the comment is printed. -/
structure Placement.Proper (roots : List Tree) (place : Placement) : Prop where
  reachable : Reachable roots place.node
  vacant : place.role = .dangling → place.node.namedChildren = []

namespace Placement.Reachable

variable {roots : List Tree} {t : Tree}

/-- The search gets to every root. -/
theorem of_root (h : t ∈ roots) : Reachable roots t where
  mem := Tree.mem_nodesOfAll_of_mem h t.mem_nodes_self
  token _ := h

/-- The search gets to the named children of a node. -/
theorem of_named_child (h : t ∈ Tree.nodesOfAll roots) {u : Tree} (hu : u ∈ t.children)
    (hn : u.isNamed = true) : Reachable roots u where
  mem := Tree.mem_nodesOfAll_trans h (Tree.mem_nodes_of_mem_children hu)
  token hk := by
    rw [Tree.isNamed, hk] at hn
    cases hn

end Placement.Reachable

namespace Surroundings

/-- The surroundings of a comment among some roots: what they name can take the
comment, they name something, and a container without named neighbours has no named
child. -/
structure Fair (roots : List Tree) (s : Surroundings) : Prop where
  container : ∀ t, s.container = some t → Placement.Reachable roots t
  previous : ∀ t, s.previous = some t → Placement.Reachable roots t
  following : ∀ t, s.following = some t → Placement.Reachable roots t
  vacant : s.previous = none → s.following = none → ∀ t, s.container = some t →
    t.namedChildren = []
  found : s.previous = none → s.following = none → s.container ≠ none

variable {roots : List Tree}

mutual

/-- Inside a node. -/
theorem fair_inside (start stop : Nat) :
    ∀ (t : Tree), Placement.Reachable roots t → (inside start stop t).Fair roots
  | .leaf info text, ht => by
    rw [inside]
    refine ⟨?_, by simp, by simp, ?_, by simp⟩
    · rintro t ⟨⟩
      exact ht
    · rintro - - t ⟨⟩
      rfl
  | .branch info ts, ht => by
    rw [inside]
    refine fair_among start stop ts ht (by simp) (fun t htc => htc) ?_
    intro _
    rfl

/-- Among the last children of a node, with no named child left out if there is no
neighbour on the left yet. -/
theorem fair_among (start stop : Nat) {container : Tree} {previous : Option Tree} :
    ∀ (ts : List Tree), Placement.Reachable roots container →
      (∀ t, previous = some t → Placement.Reachable roots t) →
      (∀ t ∈ ts, t ∈ container.children) →
      (previous = none → container.namedChildren = ts.filter Tree.isNamed) →
      (among start stop (some container) previous ts).Fair roots
  | [], hc, hp, _, hnamed => by
    rw [among]
    refine ⟨?_, hp, by simp, ?_, by simp⟩
    · rintro t ⟨⟩
      exact hc
    · rintro hprevious - t ⟨⟩
      exact hnamed hprevious
  | t :: ts, hc, hp, hts, hnamed => by
    obtain ⟨ht, hts⟩ := List.forall_mem_cons.mp hts
    rw [among]
    split
    · rename_i htoken
      have hskip : (t :: ts).filter Tree.isNamed = ts.filter Tree.isNamed :=
        List.filter_cons_of_neg (by simpa using htoken)
      refine fair_among start stop ts hc hp hts fun hprevious => ?_
      rw [hnamed hprevious, hskip]
    · rename_i hn
      have hn : t.isNamed = true := by simpa using hn
      have hreach := Placement.Reachable.of_named_child hc.mem ht hn
      have hleft : ∀ u, some t = some u → Placement.Reachable roots u := by
        rintro u ⟨⟩
        exact hreach
      split
      · exact fair_among start stop ts hc hleft hts (by simp)
      · split
        · refine ⟨?_, hp, hleft, by simp, by simp⟩
          rintro u ⟨⟩
          exact hc
        · exact fair_inside start stop t hreach

end

/-- Among the last roots. -/
theorem fair_amongRoots (start stop : Nat) {previous : Option Tree} {ts : List Tree}
    (hts : ∀ t ∈ ts, t ∈ roots) (hp : ∀ t, previous = some t → Placement.Reachable roots t)
    (hne : previous = none → ts ≠ []) : (amongRoots start stop previous ts).Fair roots := by
  induction ts generalizing previous with
  | nil =>
    rw [amongRoots]
    exact ⟨by simp, hp, by simp, by simp, fun hprevious _ => absurd rfl (hne hprevious)⟩
  | cons t ts ih =>
    obtain ⟨ht, hts⟩ := List.forall_mem_cons.mp hts
    have hreach := Placement.Reachable.of_root ht
    have hleft : ∀ u, some t = some u → Placement.Reachable roots u := by
      rintro u ⟨⟩
      exact hreach
    rw [amongRoots]
    split
    · exact ih hts hleft (by simp)
    · split
      · exact ⟨by simp, hp, hleft, by simp, by simp⟩
      · exact fair_inside start stop t hreach

/-- The surroundings of a comment of a source that has roots. -/
theorem fair_of (p : Parsed) (hroots : p.roots ≠ []) (c : Comment) : (of p c).Fair p.roots := by
  have hmany : (amongRoots c.span.start.offset c.span.stop.offset none p.roots).Fair p.roots :=
    fair_amongRoots _ _ (fun t ht => ht) (by simp) (fun _ => hroots)
  unfold of
  dsimp only
  split
  · rename_i root hroot
    split
    · refine fair_inside _ _ root (Placement.Reachable.of_root ?_)
      rw [hroot]
      exact List.mem_singleton_self root
    · rw [hroot] at hmany ⊢
      exact hmany
  · exact hmany

end Surroundings

namespace Placement

variable {roots : List Tree}

/-- A place is found among surroundings, and the comment is printed there. -/
theorem exists_choose? (policy : TieBreak) (c : Comment) {s : Surroundings} (h : s.Fair roots) :
    ∃ place, choose? policy c s = some place ∧ place.Proper roots := by
  unfold choose?
  cases hp : s.previous with
  | none =>
    cases hf : s.following with
    | none =>
      obtain ⟨t, ht⟩ := Option.ne_none_iff_exists'.mp (h.found hp hf)
      rw [ht]
      exact ⟨_, rfl, h.container t ht, fun _ => h.vacant hp hf t ht⟩
    | some following => exact ⟨_, rfl, h.following following hf, by simp⟩
  | some previous =>
    cases hf : s.following with
    | none => exact ⟨_, rfl, h.previous previous hp, by simp⟩
    | some following =>
      dsimp only
      split
      · exact ⟨_, rfl, h.previous previous hp, by simp⟩
      · exact ⟨_, rfl, h.following following hf, by simp⟩

/-- A comment that moves into a body goes in front of a member, or inside the body if
there is none. -/
theorem proper_intoBody {body : Tree} (h : Reachable roots body) : (intoBody body).Proper roots := by
  unfold intoBody
  cases hn : body.namedChildren with
  | nil => exact ⟨h, fun _ => hn⟩
  | cons member members =>
    have hmember : member ∈ body.namedChildren := by
      rw [hn]
      exact List.mem_cons_self
    obtain ⟨hchild, hnamed⟩ := List.mem_filter.mp hmember
    exact ⟨Reachable.of_named_child h.mem hchild hnamed, by simp⟩

/-- Every comment of a source that has roots gets a place where it is printed. -/
theorem exists_of? (policy : TieBreak) (p : Parsed) (hroots : p.roots ≠ []) (c : Comment) :
    ∃ place, of? policy p c = some place ∧ place.Proper p.roots := by
  have hfair := Surroundings.fair_of p hroots c
  unfold of?
  dsimp only
  cases hb : bodyAhead? p.source c (Surroundings.of p c) with
  | none => exact exists_choose? policy c hfair
  | some body =>
    have hfollowing : (Surroundings.of p c).following = some body := by
      unfold bodyAhead? at hb
      split at hb
      · rename_i container following hcontainer hfollowing
        split at hb
        · rw [hfollowing]
          exact hb
        · cases hb
      · cases hb
    exact ⟨_, rfl, proper_intoBody (hfair.following body hfollowing)⟩

end Placement

end JavaFormat
