import JavaFormat.Proofs.Syntax.Table
import JavaFormat.Syntax.Parsed
import Mathlib.Data.List.Forall2

/-!
# What becomes of a concrete tree

The conversion of a concrete tree goes into every node but tokens, comments and verbatim
nodes. `reached` lists the nodes that it comes to; `Flattened` says what becomes of them. They
become that (`flattened_of_convert`) unless one of them has a name that is not known
(`exists_unknown_of_convert`).
-/

namespace JavaFormat

open JavaFormat.Tree

namespace ConcreteInfo

/-- Whether the node is a comment. -/
def isComment (info : ConcreteInfo) : Bool :=
  info.type == "line_comment" || info.type == "block_comment"

/-- Whether the grammar names the node and the node is kept as it is written. -/
def isVerbatim (info : ConcreteInfo) : Bool :=
  info.named && (NodeKind.ofName? info.type).any NodeKind.isVerbatim

/-- Whether the node is kept as it is written: an anonymous token or a verbatim node. -/
def isWritten (info : ConcreteInfo) : Bool := !info.named || info.isVerbatim

/-- Whether the grammar names the node, which is no comment, by a name that is not known. -/
def isUnknown (info : ConcreteInfo) : Bool :=
  info.named && !info.isComment && (NodeKind.ofName? info.type).isNone

/-- Whether the conversion does not go below the node. -/
def isClosed (info : ConcreteInfo) : Bool := info.isComment || info.isWritten

/-- The kind of the node, if its name is known. -/
def kind? (info : ConcreteInfo) : Option NodeKind :=
  if info.named then NodeKind.ofName? info.type else some .token

/-- A comment has no name to be known. -/
theorem isUnknown_of_isComment {info : ConcreteInfo} (h : info.isComment = true) :
    info.isUnknown = false := by
  simp [isUnknown, h]

/-- A node with a kind has a name that is known. -/
theorem isUnknown_of_kind? {info : ConcreteInfo} {kind : NodeKind} (h : info.kind? = some kind) :
    info.isUnknown = false := by
  cases hnamed : info.named with
  | false => simp [isUnknown, hnamed]
  | true =>
    have hname : NodeKind.ofName? info.type = some kind := by simpa [kind?, hnamed] using h
    simp [isUnknown, hname]

/-- What a node is for the conversion. -/
inductive IsPart (info : ConcreteInfo) : Part → Prop
  | comment (hc : info.isComment = true) : IsPart info (.comment (info.type == "line_comment"))
  | leaf {kind} (hc : info.isComment = false) (hw : info.isWritten = true)
    (hk : info.kind? = some kind) : IsPart info (.leaf kind)
  | branch {kind} (hc : info.isComment = false) (hw : info.isWritten = false)
    (hk : info.kind? = some kind) : IsPart info (.branch kind)
  | unknown (hu : info.isUnknown = true) (hc : info.isClosed = false) : IsPart info .unknown

/-- The conversion tells nodes apart. -/
theorem isPart_part (info : ConcreteInfo) : info.IsPart info.part := by
  by_cases hc : info.isComment = true
  · have hpart : info.part = .comment (info.type == "line_comment") := by
      rcases Bool.or_eq_true_iff.mp hc with h | h <;> simp [part, beq_iff_eq.mp h]
    rw [hpart]
    exact .comment hc
  · replace hc : info.isComment = false := by simpa using hc
    obtain ⟨hline, hblock⟩ := Bool.or_eq_false_iff.mp hc
    rw [part, if_neg (by simpa using hline), if_neg (by simpa using hblock)]
    cases hnamed : info.named with
    | false => exact .leaf hc (by simp [isWritten, hnamed]) (by simp [kind?, hnamed])
    | true =>
      cases hname : NodeKind.ofName? info.type with
      | none =>
        exact .unknown (by simp [isUnknown, hnamed, hc, hname])
          (by simp [isClosed, isWritten, isVerbatim, hnamed, hc, hname])
      | some kind =>
        have hk : info.kind? = some kind := by simp [kind?, hnamed, hname]
        have hw : info.isWritten = kind.isVerbatim := by
          simp [isWritten, isVerbatim, hnamed, hname]
        cases hverbatim : kind.isVerbatim with
        | true => simpa [hverbatim] using IsPart.leaf hc (hw.trans hverbatim) hk
        | false => simpa [hverbatim] using IsPart.branch hc (hw.trans hverbatim) hk

/-- A node that is converted with its children is of a known kind. -/
theorem ofName?_of_part_eq_branch {info : ConcreteInfo} {kind : NodeKind}
    (h : info.part = .branch kind) : NodeKind.ofName? info.type = some kind := by
  have hpart := info.isPart_part
  rw [h] at hpart
  cases hpart with
  | branch hc hw hk =>
    rw [isWritten, Bool.or_eq_false_iff] at hw
    have hnamed : info.named = true := by simpa using hw.1
    simpa [kind?, hnamed] using hk

end ConcreteInfo

namespace Concrete

mutual

/-- The nodes of a tree that are not below one that hides what is below it, each after the
nodes below it. -/
def shown (hides : ConcreteInfo → Bool) : Concrete → List Concrete
  | .node info children =>
    (if hides info then [] else shownOfAll hides children) ++ [.node info children]

/-- The nodes of several trees that are not below one that hides what is below it. -/
def shownOfAll (hides : ConcreteInfo → Bool) : List Concrete → List Concrete
  | [] => []
  | t :: ts => t.shown hides ++ shownOfAll hides ts

end

/-- The nodes that are not below an anonymous, a comment or a verbatim node, each after the
nodes below it. -/
def reached (t : Concrete) : List Concrete := t.shown ConcreteInfo.isClosed

/-- The nodes of several trees that are not below an anonymous, a comment or a verbatim
node. -/
def reachedOfAll (ts : List Concrete) : List Concrete := shownOfAll ConcreteInfo.isClosed ts

/-- The nodes directly below a node that become its children. -/
def parts (t : Concrete) : List Concrete :=
  if t.info.isWritten then [] else t.children.filter (!·.info.isComment)

/-- Whether nothing is left below a node that is no comment: an anonymous token, a verbatim
node or a named node without parts. -/
def isEnd (t : Concrete) : Bool := !t.info.isComment && t.parts.isEmpty

/-- What becomes of a node that is no comment. -/
structure Becomes (source : Source) (c : Concrete) (t : Tree) : Prop where
  kind : c.info.kind? = some t.kind
  text : if c.info.isWritten then ∃ s, c.info.text source = .ok s ∧ t.text? = some s
    else t.text? = none
  fields : t.children.map Tree.field = c.parts.map (·.info.field)
  span : t.children = [] → t.span = source.span c.info.start c.info.stop

/-- What becomes of a comment. -/
structure Remarks (source : Source) (c : Concrete) (comment : Comment) : Prop where
  isLine : comment.isLine = (c.info.type == "line_comment")
  text : ∃ s, c.info.text source = .ok s ∧
    comment.text = if comment.isLine then Text.trimEnd s else s
  span : comment.span = source.span c.info.start c.info.stop

/-- Whether a concrete tree has become a tree and a list of comments. -/
structure Flattened (source : Source) (t : Concrete) (whole : Tree) (comments : List Comment) :
    Prop where
  table : whole.IsTable
  /-- The nodes of the table are the reached nodes that are no comments. -/
  nodes : List.Forall₂ (Becomes source) (t.reached.filter (!·.info.isComment)) whole.nodes
  /-- What is read off the tree are the reached nodes below which nothing is left. -/
  leaves : List.Forall₂ (Becomes source) (t.reached.filter isEnd) whole.leaves
  /-- The comments are the reached comments, each of them once. -/
  remarks : ∃ found, List.Forall₂ (Remarks source) (t.reached.filter (·.info.isComment)) found ∧
    comments.Perm found
  ordered : comments.Pairwise fun a b => a.span.start.offset ≤ b.span.start.offset

/-- Whether some trees have been converted, their nodes being numbered from `start` on. -/
structure Gathered (source : Source) (start : Nat) (ts : List Concrete) (h : Harvest) : Prop where
  next : h.next = start + (nodesOfAll h.trees).length
  numbered : (nodesOfAll h.trees).map index = List.range' start (nodesOfAll h.trees).length
  nodes : List.Forall₂ (Becomes source) ((reachedOfAll ts).filter (!·.info.isComment))
    (nodesOfAll h.trees)
  leaves : List.Forall₂ (Becomes source) ((reachedOfAll ts).filter isEnd) (leavesOfAll h.trees)
  remarks : List.Forall₂ (Remarks source) ((reachedOfAll ts).filter (·.info.isComment)) h.comments

/-- Whether some trees have been converted below a node, where each plays its part. -/
structure Harvested (source : Source) (start : Nat) (ts : List Concrete) (h : Harvest) : Prop
    extends Gathered source start ts h where
  fields : h.trees.map Tree.field = (ts.filter (!·.info.isComment)).map (·.info.field)

section Harvest

variable {source : Source} {start : Nat} {info : ConcreteInfo} {children : List Concrete}

/-- Nothing is reached below a closed node. -/
theorem reachedOfAll_of_isClosed (children : List Concrete) (h : info.isClosed = true) :
    reachedOfAll [.node info children] = [.node info children] := by
  simp [reachedOfAll, shownOfAll, shown, h]

/-- An open node is reached after the nodes below it. -/
theorem reachedOfAll_of_not_isClosed (children : List Concrete) (h : info.isClosed = false) :
    reachedOfAll [.node info children] = reachedOfAll children ++ [.node info children] := by
  simp [reachedOfAll, shownOfAll, shown, h]

/-- The nodes of trees that follow one another are reached one tree after the other. -/
theorem reachedOfAll_append (ts us : List Concrete) :
    reachedOfAll (ts ++ us) = reachedOfAll ts ++ reachedOfAll us := by
  simp only [reachedOfAll]
  induction ts with
  | nil => rfl
  | cons t ts ih => rw [List.cons_append, shownOfAll, ih, shownOfAll, List.append_assoc]

/-- A single tree is reached like several. -/
theorem reachedOfAll_singleton (t : Concrete) : reachedOfAll [t] = t.reached := by
  simp [reachedOfAll, shownOfAll, reached]

/-- Nothing is harvested from no trees. -/
theorem harvested_nil : Harvested source start [] ⟨[], [], start⟩ where
  next := rfl
  numbered := rfl
  nodes := .nil
  leaves := .nil
  remarks := .nil
  fields := rfl

/-- Trees are harvested one after the other. -/
theorem Harvested.append {ts us : List Concrete} {h k : Harvest}
    (hts : Harvested source start ts h) (hus : Harvested source h.next us k) :
    Harvested source start (ts ++ us) (h.append k) := by
  have hnodes : nodesOfAll (h.trees ++ k.trees) = nodesOfAll h.trees ++ nodesOfAll k.trees := by
    simp only [nodesOfAll_eq_flatMap, List.flatMap_append]
  have hleaves : leavesOfAll (h.trees ++ k.trees) = leavesOfAll h.trees ++ leavesOfAll k.trees := by
    simp only [leavesOfAll_eq_flatMap, List.flatMap_append]
  have hnumbered := hus.numbered
  rw [hts.next] at hnumbered
  refine ⟨⟨?_, ?_, ?_, ?_, ?_⟩, ?_⟩
  · rw [Harvest.append, hnodes, hus.next, hts.next, List.length_append, Nat.add_assoc]
  · rw [Harvest.append, hnodes, List.map_append, hts.numbered, hnumbered, List.length_append,
      List.range'_append_1]
  · rw [reachedOfAll_append, List.filter_append, Harvest.append, hnodes]
    exact List.rel_append hts.nodes hus.nodes
  · rw [reachedOfAll_append, List.filter_append, Harvest.append, hleaves]
    exact List.rel_append hts.leaves hus.leaves
  · rw [reachedOfAll_append, List.filter_append]
    exact List.rel_append hts.remarks hus.remarks
  · rw [Harvest.append, List.map_append, hts.fields, hus.fields, List.filter_append,
      List.map_append]

/-- A comment is harvested. -/
theorem harvested_comment {comment : Comment} (hc : info.isComment = true)
    (hcomment : Remarks source (.node info children) comment) :
    Harvested source start [.node info children] ⟨[], [comment], start⟩ := by
  have hreached := reachedOfAll_of_isClosed children
    (show info.isClosed = true by simp [ConcreteInfo.isClosed, hc])
  have hend : isEnd (.node info children) = false := by simp [isEnd, Concrete.info, hc]
  refine ⟨⟨rfl, rfl, ?_, ?_, ?_⟩, ?_⟩
  · simp [hreached, Concrete.info, hc, nodesOfAll]
  · simp [hreached, hend, leavesOfAll]
  · simpa [hreached, Concrete.info, hc] using hcomment
  · simp [Concrete.info, hc]

/-- A token or a verbatim node is harvested. -/
theorem harvested_leaf {kind : NodeKind} {s : String} (hc : info.isComment = false)
    (hw : info.isWritten = true) (hk : info.kind? = some kind) (hs : info.text source = .ok s) :
    Harvested source start [.node info children]
      ⟨[.leaf ⟨start, kind, info.field, source.span info.start info.stop⟩ s], [], start + 1⟩ := by
  have hreached := reachedOfAll_of_isClosed children
    (show info.isClosed = true by simp [ConcreteInfo.isClosed, hw])
  have hend : isEnd (.node info children) = true := by simp [isEnd, parts, Concrete.info, hc, hw]
  have hbecomes : Becomes source (.node info children)
      (.leaf ⟨start, kind, info.field, source.span info.start info.stop⟩ s) := by
    refine ⟨hk, ?_, ?_, fun _ => rfl⟩
    · rw [Concrete.info, if_pos hw]
      exact ⟨s, hs, rfl⟩
    · simp [parts, Concrete.info, hw, Tree.children]
  refine ⟨⟨rfl, rfl, ?_, ?_, ?_⟩, ?_⟩
  · simpa [hreached, Concrete.info, hc, nodesOfAll, Tree.nodes] using hbecomes
  · simpa [hreached, hend, leavesOfAll, Tree.leaves] using hbecomes
  · simp [hreached, Concrete.info, hc]
  · simp [Concrete.info, hc, Tree.field, Tree.info]

section Enclose

variable {kind : NodeKind} {below : Harvest}

/-- What becomes of a node that is no leaf. -/
theorem Harvested.becomes_enclose (h : Harvested source start children below)
    (hw : info.isWritten = false) (hk : info.kind? = some kind) (field : Option String) :
    Becomes source (.node info children) (below.enclose source info kind field) where
  kind := hk
  text := by
    rw [Concrete.info, if_neg (by simp [hw])]
    rfl
  fields := by
    rw [parts, Concrete.info, if_neg (by simp [hw])]
    exact h.fields
  span hnone := by
    have hnone : below.trees = [] := hnone
    rw [Harvest.enclose, hnone]
    rfl

/-- A node that is no leaf is converted after the nodes below it. If none of its parts is left, the
node itself is an end. -/
theorem Harvested.gathered_enclose (h : Harvested source start children below)
    (hc : info.isComment = false) (hw : info.isWritten = false) (hk : info.kind? = some kind)
    (field : Option String) :
    Gathered source start [.node info children]
      ⟨[below.enclose source info kind field], below.comments, below.next + 1⟩ := by
  have hreached := reachedOfAll_of_not_isClosed children
    (show info.isClosed = false by simp [ConcreteInfo.isClosed, hc, hw])
  have hbecomes := h.becomes_enclose hw hk field
  have hnodes : nodesOfAll [below.enclose source info kind field] =
      nodesOfAll below.trees ++ [below.enclose source info kind field] := by
    simp [nodesOfAll, Harvest.enclose, Tree.nodes]
  have hindex : (below.enclose source info kind field).index = below.next := rfl
  refine ⟨?_, ?_, ?_, ?_, ?_⟩
  · rw [hnodes, h.next, List.length_append, List.length_singleton, Nat.add_assoc]
  · rw [hnodes, List.map_append, h.numbered, List.length_append, List.length_singleton,
      List.range'_1_concat, List.map_singleton, hindex, h.next]
  · rw [hreached, List.filter_append, hnodes]
    refine List.rel_append h.nodes ?_
    simpa [Concrete.info, hc] using hbecomes
  · rw [hreached, List.filter_append]
    have hfields := hbecomes.fields
    have hleaves := h.leaves
    cases htrees : below.trees with
    | nil =>
      have hend : isEnd (.node info children) = true := by
        have hparts : (Concrete.node info children).parts = [] := by
          simpa [Harvest.enclose, htrees, Tree.children] using hfields.symm
        simp [isEnd, Concrete.info, hc, hparts]
      have hself : leavesOfAll [below.enclose source info kind field] =
          [below.enclose source info kind field] := by
        simp [Harvest.enclose, htrees, leavesOfAll, Tree.leaves]
      rw [htrees] at hleaves
      rw [List.forall₂_nil_right_iff.mp hleaves, List.nil_append, hself]
      simpa [hend] using hbecomes
    | cons u us =>
      have hend : isEnd (.node info children) = false := by
        have hparts : (Concrete.node info children).parts ≠ [] := by
          intro hparts
          simp [Harvest.enclose, htrees, Tree.children, hparts] at hfields
        simp [isEnd, hparts]
      have hinside : leavesOfAll [below.enclose source info kind field] =
          leavesOfAll below.trees := by
        simp [Harvest.enclose, htrees, leavesOfAll, Tree.leaves]
      rw [hinside, List.filter_singleton, hend]
      simpa using hleaves
  · rw [hreached, List.filter_append]
    simpa [Concrete.info, hc] using h.remarks

/-- A node that is no leaf is harvested. -/
theorem Harvested.enclose (h : Harvested source start children below)
    (hc : info.isComment = false) (hw : info.isWritten = false) (hk : info.kind? = some kind) :
    Harvested source start [.node info children]
      ⟨[below.enclose source info kind info.field], below.comments, below.next + 1⟩ where
  toGathered := h.gathered_enclose hc hw hk info.field
  fields := by simp [Concrete.info, hc, Harvest.enclose, Tree.field, Tree.info]

end Enclose

end Harvest

/-! ## The conversion -/

/-- Whether the text of every comment, token and verbatim node among some nodes is text, as it is
if the nodes begin and end between two characters of the source. -/
def Readable (source : Source) (cs : List Concrete) : Prop :=
  ∀ c ∈ cs, c.info.isComment = true ∨ c.info.isWritten = true → ∃ s, c.info.text source = .ok s

/-- What a node is converted to, by what it is for the conversion. -/
inductive Yields (source : Source) (start : Nat) (info : ConcreteInfo) (children : List Concrete) :
    Harvest → Prop
  | comment {found} (hc : info.isComment = true)
      (hfound : Remarks source (.node info children) found) :
      Yields source start info children ⟨[], [found], start⟩
  | leaf {kind s} (hc : info.isComment = false) (hw : info.isWritten = true)
      (hk : info.kind? = some kind) (hs : info.text source = .ok s) :
      Yields source start info children
        ⟨[.leaf ⟨start, kind, info.field, source.span info.start info.stop⟩ s], [], start + 1⟩
  | branch {kind below} (hc : info.isComment = false) (hw : info.isWritten = false)
      (hk : info.kind? = some kind) (hbelow : harvestAll source start children = .ok below) :
      Yields source start info children
        ⟨[below.enclose source info kind info.field], below.comments, below.next + 1⟩

section Converts

variable {source : Source}

/-- A node that is converted yields what its part says. -/
theorem yields_of_harvest {info : ConcreteInfo} {children : List Concrete} {start : Nat}
    {h : Harvest} (hok : harvest source start (.node info children) = .ok h) :
    Yields source start info children h := by
  rw [harvest] at hok
  have hpart := info.isPart_part
  generalize info.part = part at hpart hok
  cases hpart with
  | comment hc =>
    cases hs : info.text source with
    | error e => simp [hs, bind, Except.bind] at hok
    | ok s =>
      simp only [hs, bind, Except.bind, pure, Except.pure, Except.ok.injEq] at hok
      rw [← hok]
      exact .comment hc ⟨rfl, ⟨s, hs, rfl⟩, rfl⟩
  | leaf hc hw hk =>
    cases hs : info.text source with
    | error e => simp [hs, bind, Except.bind] at hok
    | ok s =>
      simp only [hs, bind, Except.bind, pure, Except.pure, Except.ok.injEq] at hok
      rw [← hok]
      exact .leaf hc hw hk hs
  | branch hc hw hk =>
    cases hbelow : harvestAll source start children with
    | error e => simp [hbelow, bind, Except.bind] at hok
    | ok below =>
      simp only [hbelow, bind, Except.bind, pure, Except.pure, Except.ok.injEq] at hok
      rw [← hok]
      exact .branch hc hw hk hbelow
  | unknown _ _ => simp at hok

/-- What was found in some trees was found in the first one and in the rest. -/
theorem exists_harvests_of_cons {t : Concrete} {ts : List Concrete} {next : Nat} {h : Harvest}
    (hok : harvestAll source next (t :: ts) = .ok h) :
    ∃ first rest, t.harvest source next = .ok first ∧
      harvestAll source first.next ts = .ok rest ∧ h = first.append rest := by
  rw [harvestAll] at hok
  cases hfirst : t.harvest source next with
  | error e => simp [hfirst, bind, Except.bind] at hok
  | ok first =>
    cases hrest : harvestAll source first.next ts with
    | error e => simp [hfirst, hrest, bind, Except.bind] at hok
    | ok rest =>
      simp only [hfirst, hrest, bind, Except.bind, pure, Except.pure, Except.ok.injEq] at hok
      exact ⟨first, rest, rfl, hrest, hok.symm⟩

/-- What the conversion of a tree hands out was found below the root. -/
theorem exists_harvest_of_convert {t : Concrete} {whole : Tree} {comments : List Comment}
    (hok : t.convert source = .ok (whole, comments)) :
    ∃ below kind, harvestAll source 0 t.children = .ok below ∧
      NodeKind.ofName? t.info.type = some kind ∧ whole = below.enclose source t.info kind none ∧
      comments = Text.sort startsBefore below.comments := by
  obtain ⟨info, children⟩ := t
  rw [convert] at hok
  cases hbelow : harvestAll source 0 children with
  | error e => simp [hbelow, bind, Except.bind] at hok
  | ok below =>
    cases hkind : NodeKind.ofName? info.type with
    | none => simp [hbelow, hkind, bind, Except.bind] at hok
    | some kind =>
      simp only [hbelow, hkind, bind, Except.bind, pure, Except.pure, Except.ok.injEq,
        Prod.mk.injEq] at hok
      obtain ⟨rfl, rfl⟩ := hok
      exact ⟨below, kind, hbelow, hkind, rfl, rfl⟩

/-- Whether texts can be read is found out by reading them. -/
theorem readable_of_all {cs : List Concrete}
    (h : (cs.all fun c => (c.info.text source).toBool) = true) : Readable source cs := by
  intro c hc _
  have hdecoded := List.all_eq_true.mp h c hc
  cases htext : c.info.text source with
  | ok s => exact ⟨s, rfl⟩
  | error e =>
    rw [htext] at hdecoded
    cases hdecoded

mutual

/-- A tree that is converted is harvested, and all names in it are known. -/
theorem harvested_of_harvest : ∀ {t : Concrete} {start : Nat} {h : Harvest},
    t.harvest source start = .ok h →
      Harvested source start [t] h ∧ ∀ c ∈ reachedOfAll [t], c.info.isUnknown = false
  | .node info children, start, h, hok => by
    cases yields_of_harvest hok with
    | comment hc hfound =>
      refine ⟨harvested_comment hc hfound, ?_⟩
      rw [reachedOfAll_of_isClosed children (by simp [ConcreteInfo.isClosed, hc])]
      simpa [Concrete.info] using ConcreteInfo.isUnknown_of_isComment hc
    | leaf hc hw hk hs =>
      refine ⟨harvested_leaf hc hw hk hs, ?_⟩
      rw [reachedOfAll_of_isClosed children (by simp [ConcreteInfo.isClosed, hw])]
      simpa [Concrete.info] using ConcreteInfo.isUnknown_of_kind? hk
    | branch hc hw hk hbelow =>
      obtain ⟨hharvested, hknown⟩ := harvested_of_harvestAll hbelow
      refine ⟨hharvested.enclose hc hw hk, ?_⟩
      rw [reachedOfAll_of_not_isClosed children (by simp [ConcreteInfo.isClosed, hc, hw]),
        List.forall_mem_append]
      exact ⟨hknown, by simpa [Concrete.info] using ConcreteInfo.isUnknown_of_kind? hk⟩

/-- Trees that are converted are harvested one after the other. -/
theorem harvested_of_harvestAll : ∀ {ts : List Concrete} {start : Nat} {h : Harvest},
    harvestAll source start ts = .ok h →
      Harvested source start ts h ∧ ∀ c ∈ reachedOfAll ts, c.info.isUnknown = false
  | [], start, h, hok => by
    rw [harvestAll] at hok
    obtain rfl := Except.ok.inj hok
    exact ⟨harvested_nil, fun _ hc => by cases hc⟩
  | t :: ts, start, h, hok => by
    obtain ⟨first, rest, hfirst, hrest, rfl⟩ := exists_harvests_of_cons hok
    obtain ⟨hharvested, hknown⟩ := harvested_of_harvest hfirst
    obtain ⟨hharvested', hknown'⟩ := harvested_of_harvestAll hrest
    have hreached : reachedOfAll (t :: ts) = reachedOfAll [t] ++ reachedOfAll ts :=
      reachedOfAll_append [t] ts
    refine ⟨hharvested.append hharvested', ?_⟩
    rw [hreached, List.forall_mem_append]
    exact ⟨hknown, hknown'⟩

end

mutual

/-- If its texts can be read, a tree is not converted only for a name that is not known. -/
theorem exists_unknown_of_harvest : ∀ {t : Concrete} {start : Nat} {e : FormatError},
    Readable source (reachedOfAll [t]) → t.harvest source start = .error e →
      ∃ c ∈ reachedOfAll [t], c.info.isUnknown = true ∧ e = .unhandledKind c.info.type
  | .node info children, start, e, hreadable, herror => by
    have hself : Concrete.node info children ∈ reachedOfAll [.node info children] := by
      simp [reachedOfAll, shownOfAll, shown]
    rw [harvest] at herror
    have hpart := info.isPart_part
    generalize info.part = part at hpart herror
    cases hpart with
    | comment hc =>
      obtain ⟨s, hs⟩ := hreadable _ hself (.inl hc)
      have hs : info.text source = .ok s := hs
      simp [hs, bind, Except.bind, pure, Except.pure] at herror
    | leaf hc hw hk =>
      obtain ⟨s, hs⟩ := hreadable _ hself (.inr hw)
      have hs : info.text source = .ok s := hs
      simp [hs, bind, Except.bind, pure, Except.pure] at herror
    | branch hc hw hk =>
      rw [reachedOfAll_of_not_isClosed children (by simp [ConcreteInfo.isClosed, hc, hw])]
        at hreadable ⊢
      cases hbelow : harvestAll source start children with
      | ok below => simp [hbelow, bind, Except.bind, pure, Except.pure] at herror
      | error e' =>
        obtain rfl : e' = e := by simpa [hbelow, bind, Except.bind] using herror
        obtain ⟨c, hc, hu, heq⟩ := exists_unknown_of_harvestAll
          (fun c hc => hreadable c (List.mem_append_left _ hc)) hbelow
        exact ⟨c, List.mem_append_left _ hc, hu, heq⟩
    | unknown hu _ => exact ⟨_, hself, hu, (Except.error.inj herror).symm⟩

/-- If their texts can be read, trees are not converted only for a name that is not known. -/
theorem exists_unknown_of_harvestAll : ∀ {ts : List Concrete} {start : Nat} {e : FormatError},
    Readable source (reachedOfAll ts) → harvestAll source start ts = .error e →
      ∃ c ∈ reachedOfAll ts, c.info.isUnknown = true ∧ e = .unhandledKind c.info.type
  | [], start, e, _, herror => by
    rw [harvestAll] at herror
    cases herror
  | t :: ts, start, e, hreadable, herror => by
    have hreached : reachedOfAll (t :: ts) = reachedOfAll [t] ++ reachedOfAll ts :=
      reachedOfAll_append [t] ts
    rw [hreached] at hreadable ⊢
    rw [harvestAll] at herror
    cases hfirst : t.harvest source start with
    | error e' =>
      obtain rfl : e' = e := by simpa [hfirst, bind, Except.bind] using herror
      obtain ⟨c, hc, hu, heq⟩ := exists_unknown_of_harvest
        (fun c hc => hreadable c (List.mem_append_left _ hc)) hfirst
      exact ⟨c, List.mem_append_left _ hc, hu, heq⟩
    | ok first =>
      cases hrest : harvestAll source first.next ts with
      | ok rest => simp [hfirst, hrest, bind, Except.bind, pure, Except.pure] at herror
      | error e' =>
        obtain rfl : e' = e := by simpa [hfirst, hrest, bind, Except.bind] using herror
        obtain ⟨c, hc, hu, heq⟩ := exists_unknown_of_harvestAll
          (fun c hc => hreadable c (List.mem_append_right _ hc)) hrest
        exact ⟨c, List.mem_append_right _ hc, hu, heq⟩

end

/-- The comments that are handed out are those found, in the order of the source. -/
theorem pairwise_sort_startsBefore (comments : List Comment) :
    (Text.sort startsBefore comments).Pairwise
      fun a b => a.span.start.offset ≤ b.span.start.offset := by
  have hsorted : (Text.sort startsBefore comments).Pairwise (startsBefore · ·) :=
    Text.pairwise_sort
      (fun a b => by
        simp only [startsBefore, Bool.or_eq_true, decide_eq_true_eq]
        omega)
      (fun a b c hab hbc => by
        simp only [startsBefore, decide_eq_true_eq] at hab hbc ⊢
        omega) comments
  exact hsorted.imp fun hab => by simpa [startsBefore] using hab

/-- A single tree that has been converted from the first number on is flattened. -/
theorem Gathered.flattened {t : Concrete} {whole : Tree} {comments : List Comment} {next : Nat}
    (h : Gathered source 0 [t] ⟨[whole], comments, next⟩) :
    t.Flattened source whole (Text.sort startsBefore comments) := by
  have hreached := reachedOfAll_singleton t
  have hnodes : nodesOfAll [whole] = whole.nodes := by simp [nodesOfAll]
  have hleaves : leavesOfAll [whole] = whole.leaves := by simp [leavesOfAll]
  have hnumbered : whole.nodes.map index = List.range whole.nodes.length := by
    rw [List.range_eq_range', ← hnodes]
    exact h.numbered
  exact {
    table := isTable_of_numbered hnumbered
    nodes := by
      rw [← hreached, ← hnodes]
      exact h.nodes
    leaves := by
      rw [← hreached, ← hleaves]
      exact h.leaves
    remarks := ⟨comments, by rw [← hreached]; exact h.remarks, Text.sort_perm _ _⟩
    ordered := pairwise_sort_startsBefore comments }

section Program

variable {info : ConcreteInfo} {children : List Concrete} (hnamed : info.named = true)
  (htype : info.type = "program")
include hnamed htype

/-- The kind of a program is known. -/
theorem kind?_of_program : info.kind? = some .program := by
  rw [ConcreteInfo.kind?, if_pos hnamed, htype]
  rfl

/-- A program is no comment, and it is not kept as it is written. -/
theorem isOpen_of_program : info.isComment = false ∧ info.isWritten = false := by
  have hname : NodeKind.ofName? info.type = some .program := by
    rw [htype]
    rfl
  refine ⟨by simp [ConcreteInfo.isComment, htype], ?_⟩
  simp [ConcreteInfo.isWritten, ConcreteInfo.isVerbatim, hnamed, hname, NodeKind.isVerbatim]

/-- A program is reached after the nodes below it. -/
theorem reached_of_program :
    (node info children).reached = reachedOfAll children ++ [.node info children] := by
  obtain ⟨hc, hw⟩ := isOpen_of_program hnamed htype
  rw [← reachedOfAll_singleton,
    reachedOfAll_of_not_isClosed children (by simp [ConcreteInfo.isClosed, hc, hw])]

/-- A program that is converted is flattened, and all names in it are known. -/
theorem flattened_of_convert {whole : Tree} {comments : List Comment}
    (hok : (node info children).convert source = .ok (whole, comments)) :
    (node info children).Flattened source whole comments ∧
      ∀ c ∈ (node info children).reached, c.info.isUnknown = false := by
  obtain ⟨hc, hw⟩ := isOpen_of_program hnamed htype
  have hk := kind?_of_program hnamed htype
  obtain ⟨below, kind, hbelow, hkind, rfl, rfl⟩ := exists_harvest_of_convert hok
  obtain ⟨hharvested, hknown⟩ := harvested_of_harvestAll hbelow
  have hkind : NodeKind.ofName? info.type = some kind := hkind
  obtain rfl : .program = kind := by simpa [ConcreteInfo.kind?, hnamed, hkind] using hk.symm
  refine ⟨(hharvested.gathered_enclose hc hw hk none).flattened, ?_⟩
  rw [reached_of_program hnamed htype, List.forall_mem_append]
  exact ⟨hknown, by simpa [Concrete.info] using ConcreteInfo.isUnknown_of_kind? hk⟩

/-- A program whose texts can be read is not converted only for a name that is not known. -/
theorem exists_unknown_of_convert (hreadable : Readable source (node info children).reached)
    {e : FormatError} (herror : (node info children).convert source = .error e) :
    ∃ c ∈ (node info children).reached, c.info.isUnknown = true ∧
      e = .unhandledKind c.info.type := by
  rw [reached_of_program hnamed htype] at hreadable ⊢
  have hkind : NodeKind.ofName? info.type = some .program := by
    rw [htype]
    rfl
  rw [convert] at herror
  cases hbelow : harvestAll source 0 children with
  | ok below => simp [hbelow, hkind, bind, Except.bind, pure, Except.pure] at herror
  | error e' =>
    obtain rfl : e' = e := by simpa [hbelow, bind, Except.bind] using herror
    obtain ⟨c, hc, hu, heq⟩ := exists_unknown_of_harvestAll
      (fun c hc => hreadable c (List.mem_append_left _ hc)) hbelow
    exact ⟨c, List.mem_append_left _ hc, hu, heq⟩

end Program

end Converts

/-- The source of a statement with a remark behind it. -/
def remarkSource : Source := Source.ofText "a; // b"

/-- A statement and a remark. -/
def remark : Concrete :=
  .node ⟨"program", true, 0, 7, none, false, false⟩ [
    .node ⟨"expression_statement", true, 0, 2, none, false, false⟩ [
      .node ⟨"identifier", true, 0, 1, none, false, false⟩ [],
      .node ⟨";", false, 1, 2, none, false, false⟩ []],
    .node ⟨"line_comment", true, 3, 7, none, false, false⟩ []]

/-- What the statement becomes. -/
def remarkTree : Tree :=
  .branch ⟨3, .program, none, remarkSource.span 0 2⟩ [
    .branch ⟨2, .expressionStatement, none, remarkSource.span 0 2⟩ [
      .leaf ⟨0, .identifier, none, remarkSource.span 0 1⟩ "a",
      .leaf ⟨1, .token, none, remarkSource.span 1 2⟩ ";"]]

end Concrete

end JavaFormat
