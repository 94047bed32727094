import JavaFormat.Layout.Modifiers
import JavaFormat.Proofs.Comments.Placement
import Mathlib.Algebra.BigOperators.Group.List.Basic
import Mathlib.Algebra.Order.Group.Multiset
import Mathlib.Data.List.Nodup
import Mathlib.Data.List.Pairwise
import Mathlib.Data.Multiset.Bind

/-!
# Every comment is attached once

Attaching succeeds if there is a root, and gives one attached comment for each
comment. As the number of a node identifies it, the comments found at the nodes of
the roots are all comments of the source, each of them once (`Parsed.Remarked`). Whether
a line has to end behind a comment depends on the node and on the comments beside it, so a
`Remark` says it beside the comment.
-/

namespace JavaFormat

/-- An attached comment. If it is bound and runs to the end of its line, nothing else may
stand on that line behind it. -/
structure Remark where
  attached : AttachedComment
  bound : Bool

/-- The comment of a remark. -/
def Remark.comment (r : Remark) : Comment := r.attached.comment

/-- Attached comments as remarks. -/
def remarksOf (bound : Bool) (as : List AttachedComment) : Multiset Remark :=
  (as.map (⟨·, bound⟩) : List Remark)

/-- Attached comments as remarks that are bound. -/
abbrev remarks : List AttachedComment → Multiset Remark := remarksOf true

section Remarks

variable (bound : Bool)

/-- No comments give no remarks. -/
@[simp] theorem remarksOf_nil : remarksOf bound [] = 0 := rfl

/-- The first of several comments gives its remark in front of the others. -/
@[simp] theorem remarksOf_cons (a : AttachedComment) (as : List AttachedComment) :
    remarksOf bound (a :: as) = {⟨a, bound⟩} + remarksOf bound as := rfl

/-- The remarks of two lists of comments together. -/
theorem remarksOf_append (as bs : List AttachedComment) :
    remarksOf bound (as ++ bs) = remarksOf bound as + remarksOf bound bs := by
  simp [remarksOf]

/-- Each comment of a list gives a remark. -/
theorem mem_remarksOf {a : AttachedComment} {as : List AttachedComment} (h : a ∈ as) :
    ⟨a, bound⟩ ∈ remarksOf bound as :=
  Multiset.mem_coe.mpr (List.mem_map_of_mem h)

/-- The remarks of a list are about its comments. -/
@[simp] theorem map_attached_remarksOf (as : List AttachedComment) :
    (remarksOf bound as).map Remark.attached = as := by
  simp [remarksOf, Function.comp_def]

end Remarks

/-- All comments of a node, one role after the other. -/
def NodeComments.toList (c : NodeComments) : List AttachedComment :=
  c.leading ++ c.dangling ++ c.trailing

/-- The comments in front of a modifier as remarks, of which the last one is bound. -/
def gapRemarks : List AttachedComment → List Remark
  | [] => []
  | [a] => [⟨a, true⟩]
  | a :: b :: as => ⟨a, false⟩ :: gapRemarks (b :: as)

/-- The comments inside a list of modifiers as remarks, handed out to the gaps between the
modifiers from left to right. No comment behind the last modifier is bound. -/
def modifierRemarks : List Tree → List AttachedComment → List Remark
  | _ :: next :: ts, pending =>
    gapRemarks (pending.takeWhile (Layout.comesBefore (some next))) ++
      modifierRemarks (next :: ts) (pending.dropWhile (Layout.comesBefore (some next)))
  | _, pending => pending.map (⟨·, false⟩)

/-- The comments inside a node. They are bound, but for some inside a list of modifiers. -/
def NodeComments.inside (t : Tree) (c : NodeComments) : Multiset Remark :=
  match t.kind with
  | .modifiers => (modifierRemarks t.children c.dangling : Multiset Remark)
  | _ => remarks c.dangling

/-- All comments of a node. -/
def NodeComments.all (t : Tree) (c : NodeComments) : Multiset Remark :=
  remarks c.leading + c.inside t + remarks c.trailing

/-- The comments put to the nodes of a tree. -/
def Attachments.within (attachments : Attachments) (t : Tree) : Multiset Remark :=
  (t.nodes.map fun u => (attachments.at u.index).all u).sum

/-- Whether a comment inside a list of modifiers `ts` is the last one in front of a modifier: this
one comes behind it and all the comments before it, and the comment that follows does not come
before any modifier up to this one. -/
def ClosesGap (ts : List Tree) (pending : List AttachedComment) (a : AttachedComment) : Prop :=
  ∃ before after front t back, pending = before ++ a :: after ∧ ts.tail = front ++ t :: back ∧
    (∀ b ∈ before ++ [a], Layout.comesBefore (some t) b = true) ∧
    ∀ b ∈ after.head?, ∀ s ∈ front ++ [t], Layout.comesBefore (some s) b = false

/-- Comments are put only where they are printed: inside a node only if it has no
named child, and at a token only if it is the root. -/
structure Attachments.Fits (attachments : Attachments) (t : Tree) : Prop where
  vacant : ∀ u ∈ t.nodes, (attachments.at u.index).dangling ≠ [] → u.namedChildren = []
  tokens : ∀ c ∈ t.children, ∀ u ∈ c.nodes, u.kind = .token →
    attachments.at u.index = {}

/-! ## Comments inside a list of modifiers -/

/-- The remarks on the comments in front of a modifier are on these comments. -/
@[simp] theorem map_attached_gapRemarks (as : List AttachedComment) :
    (gapRemarks as).map Remark.attached = as := by
  induction as with
  | nil => rfl
  | cons a as ih =>
    cases as with
    | nil => rfl
    | cons b as => exact congrArg (a :: ·) ih

/-- The remarks on the comments inside a list of modifiers are on these comments. -/
theorem map_attached_modifierRemarks (ts : List Tree) (pending : List AttachedComment) :
    (modifierRemarks ts pending).map Remark.attached = pending := by
  fun_induction modifierRemarks ts pending with
  | case1 pending t next ts ih =>
    rw [List.map_append, map_attached_gapRemarks, ih, List.takeWhile_append_dropWhile]
  | case2 => simp [Function.comp_def]

/-- The last comment in front of a modifier is bound. -/
theorem mem_gapRemarks_concat (as : List AttachedComment) (a : AttachedComment) :
    ⟨a, true⟩ ∈ gapRemarks (as ++ [a]) := by
  induction as with
  | nil => exact List.mem_singleton_self _
  | cons b as ih =>
    cases as with
    | nil => exact List.mem_cons_of_mem _ ih
    | cons c as => exact List.mem_cons_of_mem _ ih

/-- If not all up to an element are dropped, the element is left, and those behind it are. -/
theorem exists_dropWhile_eq {p : AttachedComment → Bool} {before after : List AttachedComment}
    {a : AttachedComment} (h : ¬∀ b ∈ before ++ [a], p b = true) :
    ∃ skipped left, before = skipped ++ left ∧
      (before ++ a :: after).dropWhile p = left ++ a :: after := by
  induction before with
  | nil => exact ⟨[], [], rfl, List.dropWhile_cons_of_neg fun ha => h (by simpa using ha)⟩
  | cons b before ih =>
    by_cases hb : p b = true
    · have hrest : ¬∀ c ∈ before ++ [a], p c = true := fun hall =>
        h (List.forall_mem_cons.mpr ⟨hb, hall⟩)
      obtain ⟨skipped, left, rfl, hleft⟩ := ih hrest
      exact ⟨b :: skipped, left, rfl, (List.dropWhile_cons_of_pos hb).trans hleft⟩
    · exact ⟨[], b :: before, rfl, List.dropWhile_cons_of_neg hb⟩

/-- A comment inside a list of modifiers that is the last one in front of a modifier is bound. -/
theorem mem_modifierRemarks {ts : List Tree} {pending : List AttachedComment}
    {a : AttachedComment} (h : ClosesGap ts pending a) : ⟨a, true⟩ ∈ modifierRemarks ts pending := by
  obtain ⟨before, after, front, t, back, rfl, htail, hbefore, hafter⟩ := h
  induction ts generalizing before front with
  | nil => simp at htail
  | cons s ts ih =>
    cases ts with
    | nil => simp at htail
    | cons next ts =>
      rw [List.tail_cons] at htail
      rw [modifierRemarks, List.mem_append]
      by_cases hall : ∀ b ∈ before ++ [a], Layout.comesBefore (some next) b = true
      · have hnext : after.takeWhile (Layout.comesBefore (some next)) = [] := by
          cases after with
          | nil => rfl
          | cons b after =>
            have hmem : next ∈ front ++ [t] := by
              cases front with
              | nil => simp [(List.cons_eq_cons.mp htail).1]
              | cons u front => simp [(List.cons_eq_cons.mp htail).1]
            exact List.takeWhile_cons_of_neg (by simp [hafter b rfl next hmem])
        refine .inl ?_
        rw [List.append_cons, List.takeWhile_append_of_pos hall, hnext, List.append_nil]
        exact mem_gapRemarks_concat before a
      · obtain ⟨skipped, left, rfl, hleft⟩ := @exists_dropWhile_eq _ _ after _ hall
        rw [hleft]
        cases front with
        | nil =>
          obtain ⟨rfl, -⟩ := List.cons_eq_cons.mp htail
          exact absurd hbefore hall
        | cons u front =>
          obtain ⟨rfl, rfl⟩ := List.cons_eq_cons.mp htail
          refine .inr (ih left front rfl (fun b hb => hbefore b ?_) fun b hb v hv => hafter b hb v ?_)
          · rw [List.append_assoc]
            exact List.mem_append_right skipped hb
          · exact List.mem_cons_of_mem next hv

/-- The remarks on the comments inside a node are on these comments. -/
theorem NodeComments.map_attached_inside (c : NodeComments) (t : Tree) :
    (c.inside t).map Remark.attached = c.dangling := by
  unfold NodeComments.inside
  split
  · exact congrArg _ (map_attached_modifierRemarks _ _)
  · exact map_attached_remarksOf true _

namespace Attachments

variable {attachments : Attachments}

/-! ## The comments of one node -/

/-- The attached comments of a node are those with its number, each in one of three
roles. -/
theorem perm_toList_at (as : Attachments) (i : Nat) :
    (as.at i).toList.Perm (as.filter (·.node == i)) := by
  have hroles : ∀ as : List AttachedComment,
      (as.filter (·.role == .leading) ++ as.filter (·.role == .dangling) ++
        as.filter (·.role == .trailing)).Perm as := by
    intro as
    induction as with
    | nil => rfl
    | cons a as ih =>
      cases hrole : a.role with
      | leading => simpa [hrole] using ih
      | dangling =>
        refine List.Perm.trans ?_ (ih.cons a)
        simp [hrole]
      | trailing =>
        refine List.Perm.trans ?_ (ih.cons a)
        simp [hrole, -List.append_assoc]
  exact hroles _

/-- The remarks at a node are on the comments attached to it. -/
theorem map_attached_all (as : Attachments) (i : Nat) (t : Tree) :
    ((as.at i).all t).map Remark.attached = as.filter (·.node == i) := by
  rw [NodeComments.all, Multiset.map_add, Multiset.map_add, map_attached_remarksOf,
    map_attached_remarksOf, NodeComments.map_attached_inside]
  exact Multiset.coe_eq_coe.mpr (perm_toList_at as i)

/-- A comment of a node is bound, unless it is inside a list of modifiers and not the last one in
front of one of them. -/
theorem mem_all_of_mem {as : Attachments} {t : Tree} {a : AttachedComment} (ha : a ∈ as)
    (hnode : a.node = t.index)
    (hgap : a.role = .dangling → t.kind = .modifiers →
      ClosesGap t.children (as.at t.index).dangling a) :
    ⟨a, true⟩ ∈ (as.at t.index).all t := by
  have hown : a ∈ as.filter (·.node == t.index) := List.mem_filter.mpr ⟨ha, by simp [hnode]⟩
  rw [NodeComments.all, Multiset.mem_add, Multiset.mem_add]
  cases hrole : a.role with
  | leading => exact .inl (.inl (mem_remarksOf true (List.mem_filter.mpr ⟨hown, by simp [hrole]⟩)))
  | trailing => exact .inr (mem_remarksOf true (List.mem_filter.mpr ⟨hown, by simp [hrole]⟩))
  | dangling =>
    refine .inl (.inr ?_)
    unfold NodeComments.inside
    split
    · rename_i hk
      exact mem_modifierRemarks (hgap hrole hk)
    · exact mem_remarksOf true (List.mem_filter.mpr ⟨hown, by simp [hrole]⟩)

/-- Distinct numbers that cover all attached comments share the comments out. -/
theorem sum_filter {is : List Nat} (hn : is.Nodup) (as : Attachments)
    (h : ∀ a ∈ as, a.node ∈ is) :
    (is.map fun i => (as.filter (·.node == i) : Multiset AttachedComment)).sum = as := by
  induction as with
  | nil => simp
  | cons a as ih =>
    obtain ⟨ha, has⟩ := List.forall_mem_cons.mp h
    have hcons : ∀ i, ((a :: as).filter (·.node == i) : Multiset AttachedComment) =
        (if i = a.node then {a} else 0) + as.filter (·.node == i) := by
      intro i
      rw [List.filter_cons]
      by_cases hi : i = a.node
      · simp [hi]
      · simp [hi, Ne.symm hi]
    have hone : (is.map fun i => if i = a.node then ({a} : Multiset AttachedComment) else 0).sum =
        {a} := by
      rw [List.sum_map_eq_nsmul_single a.node _ fun i hi _ => if_neg hi,
        List.count_eq_one_of_mem hn ha, if_pos rfl, one_nsmul]
    simp only [hcons]
    rw [List.sum_map_add, hone, ih has]
    rfl

/-! ## The comments of a tree -/

/-- A leaf carries its own comments. -/
@[simp] theorem within_leaf (info : NodeInfo) (text : String) :
    attachments.within (.leaf info text) = (attachments.at info.index).all (.leaf info text) := by
  simp [within, Tree.nodes, Tree.index, Tree.info]

/-- The nodes of a list of trees carry what the nodes below them do, one by one. -/
theorem sum_within (ts : List Tree) :
    (ts.map attachments.within).sum =
      ((Tree.nodesOfAll ts).map fun u => (attachments.at u.index).all u).sum := by
  induction ts with
  | nil => rfl
  | cons t ts ih =>
    rw [Tree.nodesOfAll, List.map_append, List.sum_append, ← ih, List.map_cons, List.sum_cons]
    rfl

/-- A node with children carries its own comments and those of its children. -/
@[simp] theorem within_branch (info : NodeInfo) (ts : List Tree) :
    attachments.within (.branch info ts) =
      (attachments.at info.index).all (.branch info ts) + (ts.map attachments.within).sum := by
  rw [within, Tree.nodes, List.map_append, List.sum_append, ← sum_within, List.map_singleton,
    List.sum_singleton, add_comm]
  rfl

/-- Every node carries its own comments and those of its children. -/
theorem within_eq (t : Tree) : attachments.within t =
    (attachments.at t.index).all t + (t.children.map attachments.within).sum := by
  cases t with
  | leaf info text => exact (within_leaf info text).trans (add_zero _).symm
  | branch info ts => exact within_branch info ts

/-- The remarks at the nodes of a tree are on attached comments. -/
theorem attached_mem_of_mem_within {t : Tree} {r : Remark} (hr : r ∈ attachments.within t) :
    r.attached ∈ attachments := by
  have hnodes : r ∈ Multiset.bind (t.nodes : Multiset Tree)
      fun u => (attachments.at u.index).all u := by
    rwa [within, ← Multiset.sum_coe, ← Multiset.map_coe] at hr
  obtain ⟨u, -, hmem⟩ := Multiset.mem_bind.mp hnodes
  have hattached := Multiset.mem_map_of_mem Remark.attached hmem
  rw [map_attached_all] at hattached
  exact List.mem_of_mem_filter (Multiset.mem_coe.mp hattached)

/-- Comments that fit a tree fit the trees below its root. -/
theorem Fits.child {t c : Tree} (h : attachments.Fits t) (hc : c ∈ t.children) :
    attachments.Fits c where
  vacant u hu := h.vacant u (Tree.mem_nodes_trans (Tree.mem_nodes_of_mem_children hc) hu)
  tokens _ hd u hu := h.tokens c hc u (Tree.mem_nodes_trans (Tree.mem_nodes_of_mem_children hd) hu)

/-- Comments that fit a tree fit all trees in it. -/
theorem Fits.of_mem_nodes {t u : Tree} (h : attachments.Fits t) (hu : u ∈ t.nodes) :
    attachments.Fits u := by
  induction t using Tree.induction_children with
  | step t ih =>
    rcases Tree.mem_nodes_iff.mp hu with rfl | ⟨v, hv, huv⟩
    · exact h
    · exact ih v hv (h.child hv) huv

end Attachments

/-! ## Attaching -/

/-- The place of an attached comment. -/
structure AttachedComment.Placed (roots : List Tree) (a : AttachedComment) (place : Placement) :
    Prop where
  node : a.node = place.node.index
  role : a.role = place.role
  ends : a.comment.isLine = true → a.breaksAfter = true
  proper : place.Proper roots

/-- Whether a comment is put inside a list of modifiers and is not the last one in front of one of
them: another one is printed behind it before the next modifier, or no modifier follows. -/
def AttachedComment.Crowded (a : AttachedComment) (as : Attachments) (roots : List Tree) : Prop :=
  a.role = .dangling ∧ ∃ u ∈ Tree.nodesOfAll roots, a.node = u.index ∧ u.kind = .modifiers ∧
    ¬ClosesGap u.children (as.at u.index).dangling a

/-- The comments of a source, attached to places where they are printed, and as remarks that are
bound unless they are crowded inside a list of modifiers. -/
structure Parsed.Remarked (p : Parsed) (as : Attachments) (cs : Multiset Remark) : Prop where
  comments : as.map AttachedComment.comment = p.comments
  placed : ∀ a ∈ as, ∃ place, a.Placed p.roots place
  attached : cs.map Remark.attached = as
  bound : ∀ a ∈ as, ¬a.Crowded as p.roots → ⟨a, true⟩ ∈ cs

namespace Parsed

/-- The comments of remarks are those of the source. -/
theorem Remarked.map_comment {p : Parsed} {as : Attachments} {cs : Multiset Remark}
    (h : p.Remarked as cs) : cs.map Remark.comment = p.comments := by
  rw [← h.comments, ← Multiset.map_coe, ← h.attached, Multiset.map_map]
  rfl

/-- All comments of a source that has roots are attached, in their order, to places
where they are printed. -/
theorem exists_attach (policy : TieBreak) (p : Parsed) (hroots : p.roots ≠ []) :
    ∃ as, p.attach policy = .ok as ∧ as.map AttachedComment.comment = p.comments ∧
      ∀ a ∈ as, ∃ place, a.Placed p.roots place := by
  unfold attach
  induction p.comments with
  | nil => exact ⟨[], rfl, rfl, by simp⟩
  | cons c cs ih =>
    obtain ⟨place, hplace, hproper⟩ := Placement.exists_of? policy p hroots c
    obtain ⟨as, hok, hcomments, hplaced⟩ := ih
    have hone : p.attachComment policy c = .ok (place.attach p.source c) := by
      rw [attachComment, hplace]
    refine ⟨place.attach p.source c :: as, ?_, ?_, ?_⟩
    · rw [List.mapM_cons, hone, hok]
      rfl
    · exact congrArg (c :: ·) hcomments
    · have hends : c.isLine = true → c.breaksAfter p.source = true := by
        intro hline
        rw [Comment.breaksAfter, hline, Bool.true_or]
      exact List.forall_mem_cons.mpr ⟨⟨place, rfl, rfl, hends, hproper⟩, hplaced⟩

variable {p : Parsed} {as : Attachments}

/-- An attached comment is put to the node with the number that it has. -/
theorem placed_node_eq (hnodup : ((Tree.nodesOfAll p.roots).map Tree.index).Nodup)
    {a : AttachedComment} {place : Placement} (h : a.Placed p.roots place) {u : Tree}
    (hu : u ∈ Tree.nodesOfAll p.roots) (ha : a.node = u.index) : place.node = u := by
  have hindex : place.node.index = u.index := by rw [← h.node, ha]
  exact List.inj_on_of_nodup_map hnodup h.proper.reachable.mem hu hindex

/-- A node below a root is no root. -/
theorem not_mem_roots_of_below (hnodup : (Tree.nodesOfAll p.roots).Nodup) {root c u : Tree}
    (hroot : root ∈ p.roots) (hc : c ∈ root.children) (hu : u ∈ c.nodes) : u ∉ p.roots := by
  intro hmem
  rw [Tree.nodesOfAll_eq_flatMap] at hnodup
  obtain ⟨hnodes, hdisjoint⟩ := List.nodup_flatMap.mp hnodup
  have hbelow : u ∈ root.nodes := Tree.mem_nodes_trans (Tree.mem_nodes_of_mem_children hc) hu
  by_cases heq : u = root
  · subst heq
    cases u with
    | leaf info text => cases hc
    | branch info ts =>
      have htwice := hnodes _ hroot
      rw [Tree.nodes] at htwice
      have hinner : Tree.branch info ts ∈ Tree.nodesOfAll ts := by
        rw [Tree.nodesOfAll_eq_flatMap]
        exact List.mem_flatMap.mpr ⟨c, hc, hu⟩
      exact List.disjoint_of_nodup_append htwice hinner (List.mem_singleton_self _)
  · have hsymm : Std.Symm (Function.onFun List.Disjoint Tree.nodes) := ⟨fun _ _ h => h.symm⟩
    exact hdisjoint.forall hmem hroot heq u.mem_nodes_self hbelow

/-- The attached comments of a source fit its roots. -/
theorem fits_of_placed (hnodup : ((Tree.nodesOfAll p.roots).map Tree.index).Nodup)
    (h : ∀ a ∈ as, ∃ place, a.Placed p.roots place) {root : Tree} (hroot : root ∈ p.roots) :
    as.Fits root where
  vacant u hu hd := by
    have hmem : u ∈ Tree.nodesOfAll p.roots := Tree.mem_nodesOfAll_of_mem hroot hu
    obtain ⟨a, ha⟩ := List.exists_mem_of_ne_nil _ hd
    obtain ⟨hown, hrole⟩ := List.mem_filter.mp ha
    obtain ⟨ha, hindex⟩ := List.mem_filter.mp hown
    obtain ⟨place, hplaced⟩ := h a ha
    have hnode := placed_node_eq hnodup hplaced hmem (by simpa using hindex)
    have hdangling : place.role = .dangling := by
      rw [← hplaced.role]
      simpa using hrole
    rw [← hnode]
    exact hplaced.proper.vacant hdangling
  tokens c hc u hu hk := by
    have hbelow : u ∈ root.nodes := Tree.mem_nodes_trans (Tree.mem_nodes_of_mem_children hc) hu
    have hmem : u ∈ Tree.nodesOfAll p.roots := Tree.mem_nodesOfAll_of_mem hroot hbelow
    have hnone : as.filter (·.node == u.index) = [] := by
      rw [List.filter_eq_nil_iff]
      intro a ha hindex
      obtain ⟨place, hplaced⟩ := h a ha
      have hnode := placed_node_eq hnodup hplaced hmem (by simpa using hindex)
      have hroots : u ∈ p.roots := by
        rw [← hnode] at hk ⊢
        exact hplaced.proper.reachable.token hk
      exact not_mem_roots_of_below hnodup.of_map hroot hc hu hroots
    simp [Attachments.at, hnone]

/-- The remarks at the nodes of the roots are those on the source. -/
theorem remarked_of_placed (hnodup : ((Tree.nodesOfAll p.roots).map Tree.index).Nodup)
    (hcomments : as.map AttachedComment.comment = p.comments)
    (hplaced : ∀ a ∈ as, ∃ place, a.Placed p.roots place) :
    p.Remarked as (p.roots.map as.within).sum where
  comments := hcomments
  placed := hplaced
  attached := by
    have hcovered : ∀ a ∈ as, a.node ∈ (Tree.nodesOfAll p.roots).map Tree.index := by
      intro a ha
      obtain ⟨place, hplace⟩ := hplaced a ha
      rw [hplace.node]
      exact List.mem_map_of_mem hplace.proper.reachable.mem
    have hsum := map_list_sum (Multiset.mapAddMonoidHom Remark.attached)
      ((Tree.nodesOfAll p.roots).map fun u => (as.at u.index).all u)
    have hshared := Attachments.sum_filter hnodup as hcovered
    rw [List.map_map] at hsum hshared
    rw [Attachments.sum_within]
    refine hsum.trans (Eq.trans (congrArg List.sum (List.map_congr_left fun u _ => ?_)) hshared)
    exact Attachments.map_attached_all as u.index u
  bound a ha hcrowded := by
    obtain ⟨place, hplace⟩ := hplaced a ha
    have hmem := hplace.proper.reachable.mem
    rw [Attachments.sum_within, ← Multiset.sum_coe, ← Multiset.map_coe]
    show _ ∈ Multiset.bind (Tree.nodesOfAll p.roots : Multiset Tree)
      fun u => (as.at u.index).all u
    refine Multiset.mem_bind.mpr ⟨place.node, hmem, ?_⟩
    refine Attachments.mem_all_of_mem ha hplace.node fun hrole hk => ?_
    by_contra hgap
    exact hcrowded ⟨hrole, place.node, hmem, hplace.node, hk, hgap⟩

end Parsed

end JavaFormat
