import JavaFormat.Comments.Buckets
import JavaFormat.Proofs.Comments.Attachment
import Mathlib.Data.List.Induction

/-!
# Attached comments, node by node

Layout asks for the comments of one node at a time. Going from node to node, each comment
of the source is met once, at a root or below one, and in one of three roles; the comments
of a node in one role are in the order of the source. Attaching fails only for want of a
root, and then at the first comment.
-/

namespace JavaFormat

/-- The comments of a node in one role. -/
def NodeComments.inRole (c : NodeComments) : CommentRole → List AttachedComment
  | .leading => c.leading
  | .trailing => c.trailing
  | .dangling => c.dangling

/-- The comments that a node has in a role are those of the node that have the role. -/
theorem Attachments.inRole_at (as : Attachments) (i : Nat) (role : CommentRole) :
    (as.at i).inRole role = (as.filter (·.node == i)).filter (·.role == role) := by
  cases role <;> rfl

/-- A comment is found at its own node and in its own role. -/
theorem Attachments.of_mem_inRole_at {as : Attachments} {i : Nat} {role : CommentRole}
    {a : AttachedComment} (h : a ∈ (as.at i).inRole role) : a.node = i ∧ a.role = role := by
  rw [inRole_at] at h
  obtain ⟨hown, hrole⟩ := List.mem_filter.mp h
  obtain ⟨-, hnode⟩ := List.mem_filter.mp hown
  exact ⟨by simpa using hnode, by simpa using hrole⟩

/-- The comments of a node in one role keep their order. -/
theorem Attachments.inRole_at_sublist (as : Attachments) (i : Nat) (role : CommentRole) :
    ((as.at i).inRole role).Sublist as := by
  rw [inRole_at]
  exact List.filter_sublist.trans List.filter_sublist

/-! ## Buckets -/

/-- A comment that is put to a node is one more comment of this node. -/
theorem NodeComments.perm_add (c : NodeComments) (a : AttachedComment) :
    ((c.add a).leading ++ (c.add a).trailing ++ (c.add a).dangling).Perm
      (c.leading ++ c.trailing ++ c.dangling ++ [a]) := by
  cases hrole : a.role with
  | leading =>
    simp only [add, hrole, List.append_assoc]
    exact List.perm_append_comm.append_left _ |>.trans (by simp)
  | trailing =>
    simp only [add, hrole, List.append_assoc]
    exact (List.perm_append_comm.append_left _).append_left _
  | dangling => simp [add, hrole]

namespace Buckets

/-- The first bucket is looked at first. -/
theorem get_cons (i : Nat) (c : NodeComments) (buckets : Buckets) (j : Nat) :
    get ((i, c) :: buckets) j = if j = i then c else buckets.get j := by
  by_cases hj : j = i
  · simp [get, hj]
  · rw [get, List.lookup_cons, beq_eq_false_iff_ne.mpr hj, if_neg hj]
    rfl

/-- Of all nodes, the one that a comment is put to has one comment more. -/
theorem get_put (buckets : Buckets) (a : AttachedComment) (i : Nat) :
    (buckets.put a).get i = if i = a.node then (buckets.get i).add a else buckets.get i := by
  induction buckets with
  | nil => exact get_cons a.node _ [] i
  | cons bucket buckets ih =>
    obtain ⟨j, c⟩ := bucket
    rw [put, get_cons]
    split
    · rename_i hj
      rw [get_cons, hj]
      split <;> rfl
    · rename_i hj
      rw [get_cons, ih]
      by_cases hi : i = j
      · rw [if_pos hi, if_pos hi, if_neg (hi ▸ hj)]
      · rw [if_neg hi, if_neg hi]

/-- The nodes that have a bucket once a comment has been put to its node. -/
theorem mem_map_fst_put (buckets : Buckets) (a : AttachedComment) (i : Nat) :
    i ∈ (buckets.put a).map Prod.fst ↔ i ∈ buckets.map Prod.fst ∨ i = a.node := by
  induction buckets with
  | nil => simp [put]
  | cons bucket buckets ih =>
    obtain ⟨j, c⟩ := bucket
    rw [put]
    split
    · rename_i hj
      subst hj
      simp only [List.map_cons, List.mem_cons]
      tauto
    · simp only [List.map_cons, List.mem_cons, ih]
      tauto

/-- No node gets a second bucket. -/
theorem nodup_put {buckets : Buckets} (h : (buckets.map Prod.fst).Nodup) (a : AttachedComment) :
    ((buckets.put a).map Prod.fst).Nodup := by
  induction buckets with
  | nil => simp [put]
  | cons bucket buckets ih =>
    obtain ⟨j, c⟩ := bucket
    obtain ⟨hj, hrest⟩ := List.nodup_cons.mp h
    rw [put]
    split
    · exact h
    · rename_i hne
      refine List.nodup_cons.mpr ⟨?_, ih hrest⟩
      rw [mem_map_fst_put]
      exact not_or.mpr ⟨hj, hne⟩

/-- The comments of the first bucket come first. -/
theorem toList_cons (bucket : Nat × NodeComments) (buckets : Buckets) :
    toList (bucket :: buckets) =
      bucket.2.leading ++ bucket.2.trailing ++ bucket.2.dangling ++ buckets.toList :=
  List.flatMap_cons

/-- A comment that is put into its bucket is one more comment. -/
theorem perm_toList_put (buckets : Buckets) (a : AttachedComment) :
    (buckets.put a).toList.Perm (buckets.toList ++ [a]) := by
  induction buckets with
  | nil => cases hrole : a.role <;> simp [put, toList, NodeComments.add, hrole]
  | cons bucket buckets ih =>
    obtain ⟨j, c⟩ := bucket
    rw [put]
    split
    · rw [toList_cons, toList_cons, List.append_assoc _ (toList buckets)]
      refine ((c.perm_add a).append_right _).trans ?_
      rw [List.append_assoc _ [a]]
      exact List.perm_append_comm.append_left _
    · rw [toList_cons, toList_cons, List.append_assoc _ (toList buckets)]
      exact ih.append_left _

/-- All comments are counted. -/
theorem count_eq (buckets : Buckets) : buckets.count = buckets.toList.length := by
  induction buckets with
  | nil => rfl
  | cons bucket buckets ih =>
    rw [count, List.foldr_cons, ← count, ih]
    simp [toList_cons, Nat.add_assoc]

/-- The bucket of a node holds the comments with its number, role by role. -/
theorem get_ofList (as : Attachments) (i : Nat) : (ofList as).get i = as.at i := by
  induction as using List.reverseRecOn with
  | nil => rfl
  | append_singleton as a ih =>
    rw [ofList, List.foldl_append, ← ofList, List.foldl_cons, List.foldl_nil, get_put, ih]
    by_cases hi : i = a.node
    · cases hrole : a.role <;> simp [Attachments.at, NodeComments.add, hi, hrole]
    · simp [Attachments.at, hi, Ne.symm hi]

/-- No node has two buckets. -/
theorem nodup_ofList (as : Attachments) : ((ofList as).map Prod.fst).Nodup := by
  induction as using List.reverseRecOn with
  | nil => exact List.nodup_nil
  | append_singleton as a ih =>
    rw [ofList, List.foldl_append]
    exact nodup_put ih a

/-- Going from bucket to bucket meets every attached comment once. -/
theorem perm_toList_ofList (as : Attachments) : (ofList as).toList.Perm as := by
  induction as using List.reverseRecOn with
  | nil => exact List.Perm.nil
  | append_singleton as a ih =>
    rw [ofList, List.foldl_append]
    exact (perm_toList_put _ a).trans (ih.append_right [a])

end Buckets

/-- Attaching comments into their buckets is attaching them and then putting them there. -/
theorem Parsed.gather_eq (policy : TieBreak) (p : Parsed) :
    p.gather policy = (p.attach policy).map Buckets.ofList := by
  have hfold : ∀ (cs : List Comment) (buckets : Buckets),
      cs.foldlM (fun buckets c => return Buckets.put buckets (← p.attachComment policy c)) buckets =
        (cs.mapM (p.attachComment policy)).map (·.foldl Buckets.put buckets) := by
    intro cs
    induction cs with
    | nil => exact fun _ => rfl
    | cons c cs ih =>
      intro buckets
      rw [List.foldlM_cons, List.mapM_cons]
      cases p.attachComment policy c with
      | error e => rfl
      | ok a =>
        refine (ih (buckets.put a)).trans ?_
        cases cs.mapM (p.attachComment policy) <;> rfl
  exact hfold p.comments []

/-- The comments of a source are put into buckets, each of them once, with nodes at or below its
roots. A node has one bucket at most, and its comments are those attached with its number. -/
structure Parsed.AttachedOnce (p : Parsed) (as : Attachments) (buckets : Buckets) : Prop where
  comments : (buckets.toList.map AttachedComment.comment).Perm p.comments
  count : buckets.count = p.comments.length
  target : ∀ a ∈ buckets.toList, ∃ u ∈ Tree.nodesOfAll p.roots, a.node = u.index
  nodes : (buckets.map Prod.fst).Nodup
  found : ∀ i, buckets.get i = as.at i
  stored : ∀ i role, ∀ a ∈ (buckets.get i).inRole role, a.node = i ∧ a.role = role
  ordered : ∀ i role,
    (((buckets.get i).inRole role).map AttachedComment.comment).Sublist p.comments

namespace Parsed

/-- Without roots there is no place for a comment. -/
theorem attachComment_of_roots_eq_nil (policy : TieBreak) {p : Parsed} (hroots : p.roots = [])
    (c : Comment) : p.attachComment policy c =
      .error (.unattachedComment c.text (c.span.start.line + 1)) := by
  have hnone : Surroundings.of p c = ⟨none, none, none⟩ := by
    simp [Surroundings.of, hroots, Surroundings.amongRoots]
  have hplace : Placement.of? policy p c = none := by
    simp [Placement.of?, hnone, Placement.bodyAhead?, Placement.choose?]
  rw [attachComment, hplace]

/-- Comments that are attached one by one in their order, to places where they are printed,
are attached once. -/
theorem attachedOnce_of_placed {p : Parsed} {as : Attachments}
    (hcomments : as.map AttachedComment.comment = p.comments)
    (hplaced : ∀ a ∈ as, ∃ place, a.Placed p.roots place) :
    p.AttachedOnce as (Buckets.ofList as) where
  comments := hcomments ▸ (Buckets.perm_toList_ofList as).map _
  count := by
    rw [Buckets.count_eq, (Buckets.perm_toList_ofList as).length_eq, ← hcomments, List.length_map]
  target a ha := by
    obtain ⟨place, hplace⟩ := hplaced a ((Buckets.perm_toList_ofList as).mem_iff.mp ha)
    exact ⟨place.node, hplace.proper.reachable.mem, hplace.node⟩
  nodes := Buckets.nodup_ofList as
  found := Buckets.get_ofList as
  stored i role a ha := by
    rw [Buckets.get_ofList] at ha
    exact Attachments.of_mem_inRole_at ha
  ordered i role := by
    rw [Buckets.get_ofList, ← hcomments]
    exact (as.inRole_at_sublist i role).map _

/-- Attaching comments into buckets is attaching them and putting them there. It fails exactly if
there are comments and no roots, and says so of the first comment; in any other case each comment
is attached once. -/
theorem attach_each_once (policy : TieBreak) (p : Parsed) :
    p.gather policy = (p.attach policy).map Buckets.ofList ∧
      (∀ e, p.attach policy = .error e ↔ p.roots = [] ∧ ∃ c cs, p.comments = c :: cs ∧
        e = .unattachedComment c.text (c.span.start.line + 1)) ∧
      (p.comments = [] ∨ p.roots ≠ [] → ∃ as buckets, p.attach policy = .ok as ∧
        p.gather policy = .ok buckets ∧ p.AttachedOnce as buckets) := by
  refine ⟨p.gather_eq policy, ?_⟩
  by_cases hroots : p.roots = []
  · cases hcomments : p.comments with
    | nil =>
      have hok : p.attach policy = .ok [] := by
        rw [attach, hcomments]
        rfl
      have honce := @attachedOnce_of_placed p [] hcomments.symm (by simp)
      refine ⟨fun e => ?_, fun _ => ⟨[], _, hok, by rw [gather_eq, hok]; rfl, honce⟩⟩
      simp [hok]
    | cons c cs =>
      have herror : p.attach policy =
          .error (.unattachedComment c.text (c.span.start.line + 1)) := by
        rw [attach, hcomments, List.mapM_cons, attachComment_of_roots_eq_nil policy hroots c]
        rfl
      refine ⟨fun e => ?_, fun h => ?_⟩
      · simp [herror, hroots, eq_comm]
      · simp [hroots] at h
  · obtain ⟨as, hok, hcomments, hplaced⟩ := p.exists_attach policy hroots
    have honce := attachedOnce_of_placed hcomments hplaced
    refine ⟨fun e => ?_, fun _ => ⟨as, _, hok, by rw [gather_eq, hok]; rfl, honce⟩⟩
    simp [hok, hroots]

/-- A block with a statement, and three comments: behind the opening brace, behind the
statement on its line and below it. -/
def remarkedStatement : Parsed :=
  let source := Source.ofText "\x7b // a\nf; // b\n// c\n\x7d"
  let statement := .branch ⟨3, .expressionStatement, none, source.span 7 9⟩ [
    .leaf ⟨1, .identifier, none, source.span 7 8⟩ "f",
    .leaf ⟨2, .token, none, source.span 8 9⟩ ";"]
  let block := .branch ⟨5, .block, none, source.span 0 21⟩ [
    .leaf ⟨0, .token, none, source.span 0 1⟩ "\x7b", statement,
    .leaf ⟨4, .token, none, source.span 20 21⟩ "\x7d"]
  ⟨block, [block], none, [⟨"// a", true, source.span 2 6⟩, ⟨"// b", true, source.span 10 14⟩,
    ⟨"// c", true, source.span 15 19⟩], source⟩

/-- The three comments are put into the bucket of the statement, one in front of it and two
behind. -/
theorem attach_each_once_remarkedStatement :
    ∃ as buckets, remarkedStatement.attach .trailing = .ok as ∧
      remarkedStatement.gather .trailing = .ok buckets ∧
      remarkedStatement.AttachedOnce as buckets ∧
      (buckets.get 3).leading.map (·.comment.text) = ["// a"] ∧
      (buckets.get 3).trailing.map (·.comment.text) = ["// b", "// c"] := by
  have hroots : remarkedStatement.roots ≠ [] := List.cons_ne_nil _ _
  obtain ⟨as, buckets, hok, hgathered, honce⟩ :=
    (attach_each_once .trailing remarkedStatement).2.2 (.inr hroots)
  have hnodes : ((remarkedStatement.gather .trailing).toOption.map fun buckets =>
      ((buckets.get 3).leading.map (·.comment.text),
        (buckets.get 3).trailing.map (·.comment.text))) =
        some (["// a"], ["// b", "// c"]) := by decide
  rw [hgathered] at hnodes
  obtain ⟨hleading, htrailing⟩ := Prod.mk.inj (Option.some.inj hnodes)
  exact ⟨as, buckets, hok, hgathered, honce, hleading, htrailing⟩

end Parsed

end JavaFormat
