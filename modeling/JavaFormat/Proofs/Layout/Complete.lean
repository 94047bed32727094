import JavaFormat.Layout.Calls
import JavaFormat.Layout.Operators
import JavaFormat.Proofs.Layout.Remarks
import JavaFormat.Proofs.Syntax.Shape

/-!
# Pieces that print all of their node

A piece is complete if its document has the leaves below its node in their order and
the comments put to any node at or below it. The same is asked of what a parent may
use in place of the document: the document without the comments in front, and the
chain of operators or calls that ends with the node.

How many comments are put to the nodes at or below a node is a parameter here, the
`share` of the node.
-/

namespace JavaFormat.Layout

open Doc

/-! ## Chains -/

section Chains

variable {α : Type} {leading : α → Doc} {wrapped : α → Except ShapeError Doc}
  {first : Except ShapeError Doc} {links : List α} {ls ls₁ ls₂ : List String}
  {cs cs₁ cs₂ : Multiset Remark}

/-- A link whose comments in front are printed elsewhere than the link, which has the
comments behind it. -/
def Linked (leading : α → Doc) (wrapped : α → Except ShapeError Doc) (a : α) (ls : List String)
    (cs : Multiset Remark) : Prop :=
  ∃ front rest, Weaves (leading a) [] front ∧ Yields (wrapped a) ls rest ∧ cs = front + rest

/-- What a chain begins with, and the links behind it. -/
def Chained (leading : α → Doc) (wrapped : α → Except ShapeError Doc)
    (first : Except ShapeError Doc) (links : List α) (ls : List String)
    (cs : Multiset Remark) : Prop :=
  ∃ ls₁ ls₂ cs₁ cs₂, Yields first ls₁ cs₁ ∧ Each (Linked leading wrapped) links ls₂ cs₂ ∧
    ls = ls₁ ++ ls₂ ∧ cs = cs₁ + cs₂

/-- A chain without links. -/
theorem Chained.start (h : Yields first ls cs) : Chained leading wrapped first [] ls cs :=
  ⟨ls, [], cs, 0, h, .nil, by simp, by simp⟩

/-- A chain goes on with one more link. -/
theorem Chained.extend {a : α} (h : Chained leading wrapped first links ls₁ cs₁)
    (ha : Linked leading wrapped a ls₂ cs₂) :
    Chained leading wrapped first (links ++ [a]) (ls₁ ++ ls₂) (cs₁ + cs₂) := by
  obtain ⟨ls₃, ls₄, cs₃, cs₄, hfirst, hlinks, rfl, rfl⟩ := h
  have hmore := hlinks.append (.single ha)
  exact ⟨ls₃, ls₄ ++ ls₂, cs₃, cs₄ + cs₂, hfirst, hmore, by simp, add_assoc ..⟩

/-- Documents without leaves may come in any order. -/
theorem Each.reverse {ds : List Doc} (h : WeavesAll ds ls cs) (hl : ls = []) :
    WeavesAll ds.reverse [] cs := by
  induction h with
  | nil => exact .nil
  | @cons d ds ls₁ ls₂ cs₁ cs₂ hd _ ih =>
    obtain ⟨rfl, rfl⟩ := List.append_eq_nil_iff.mp hl
    rw [List.reverse_cons, add_comm]
    exact (ih rfl).append (.single hd)

/-- The comments in front of all links, and the links with what is behind them. -/
theorem Each.unlink (h : Each (Linked leading wrapped) links ls cs) :
    ∃ front rest, WeavesAll (links.reverse.map leading) [] front ∧
      YieldsAll (links.mapM wrapped) ls rest ∧ cs = front + rest := by
  have hparts : ∃ front rest, WeavesAll (links.map leading) [] front ∧
      YieldsAll (links.mapM wrapped) ls rest ∧ cs = front + rest := by
    induction h with
    | nil => exact ⟨0, 0, .nil, .pure .nil, by simp⟩
    | @cons a as ls₁ ls₂ cs₁ cs₂ ha _ ih =>
      obtain ⟨front₁, rest₁, hlead, hdoc, rfl⟩ := ha
      obtain ⟨front₂, rest₂, hleads, hdocs, rfl⟩ := ih
      refine ⟨front₁ + front₂, rest₁ + rest₂, .cons hlead hleads, ?_, by ac_rfl⟩
      rw [List.mapM_cons]
      exact hdoc.bind fun d hd => hdocs.bind fun ds hds => .pure (.cons hd hds)
  obtain ⟨front, rest, hleads, hdocs, rfl⟩ := hparts
  refine ⟨front, rest, ?_, hdocs, rfl⟩
  rw [List.map_reverse]
  exact hleads.reverse rfl

end Chains

/-- The leftmost operand and all links of a chain of operators. -/
def OperatorChain.Weaves (c : OperatorChain) : List String → Multiset Remark → Prop :=
  Chained OperatorLink.leading OperatorLink.doc c.first (c.inner ++ [c.last])

/-- The leftmost receiver and all links of a chain of calls. -/
def CallChain.Weaves (c : CallChain) : List String → Multiset Remark → Prop :=
  Chained CallLink.leading CallLink.wrapped c.head (c.inner ++ [c.last])

/-! ## Pieces -/

section Pieces

variable {share : Tree → Multiset Remark}

/-- All that a parent may ask of a piece prints the leaves and comments of its node. -/
structure Piece.Complete (share : Tree → Multiset Remark) (p : Piece) : Prop where
  doc : Yields p.doc p.node.leafTexts (share p.node)
  headless : ∃ rest, share p.node = remarks p.comments.leading + rest ∧
    Yields p.docWithoutLeading p.node.leafTexts rest
  operators : ∀ found, p.operators = some found →
    Succeeds found (OperatorChain.Weaves · p.node.leafTexts (share p.node))
  calls : ∀ chain, p.calls = some chain → chain.Weaves p.node.leafTexts (share p.node)

/-- A complete piece below another node: its node has the children that its kind calls
for, and no comment is put to a token. -/
structure Piece.Inner (share : Tree → Multiset Remark) (p : Piece) : Prop
    extends Piece.Complete share p where
  regular : p.node.Regular
  token : p.kind = .token → share p.node = 0

/-- The leaves of several pieces. -/
def texts (ps : List Piece) : List String := ps.flatMap fun p => p.node.leafTexts

/-- The comments of several pieces. -/
def shares (share : Tree → Multiset Remark) (ps : List Piece) : Multiset Remark :=
  (ps.map fun p => share p.node).sum

/-- No pieces have no texts. -/
@[simp] theorem texts_nil : texts [] = [] := rfl

/-- The texts of the first piece are in front of those of the others. -/
@[simp] theorem texts_cons (p : Piece) (ps : List Piece) :
    texts (p :: ps) = p.node.leafTexts ++ texts ps := rfl

/-- The texts of two lists of pieces together. -/
@[simp] theorem texts_append (ps qs : List Piece) : texts (ps ++ qs) = texts ps ++ texts qs := by
  simp [texts]

/-- No pieces have no shares. -/
@[simp] theorem shares_nil : shares share [] = 0 := rfl

/-- The share of the first piece is counted with those of the others. -/
@[simp] theorem shares_cons (p : Piece) (ps : List Piece) :
    shares share (p :: ps) = share p.node + shares share ps := by
  simp [shares]

/-- The shares of two lists of pieces together. -/
@[simp] theorem shares_append (ps qs : List Piece) :
    shares share (ps ++ qs) = shares share ps + shares share qs := by
  simp [shares]

/-- A token is the leaf of its text. -/
theorem Piece.Inner.leafTexts_of_token {p : Piece} (h : p.Inner share) (hk : p.kind = .token) :
    p.node.leafTexts = [p.text] := by
  have hregular := h.regular
  unfold Piece.kind at hk
  unfold Piece.text
  cases hn : p.node with
  | leaf info text => rfl
  | branch info ts =>
    rw [hn] at hregular hk
    exact absurd hk hregular.1

/-- What is asked to be a token of some text has that text and no comments. -/
theorem Piece.Inner.of_isToken {p : Piece} (h : p.Inner share) {text : String}
    (ht : p.isToken text = true) : p.node.leafTexts = [text] ∧ share p.node = 0 := by
  obtain ⟨info, hn, hinfo⟩ := Tree.isToken_iff.mp ht
  have hkind : p.kind = .token := by
    rw [Piece.kind, hn]
    exact hinfo
  refine ⟨?_, h.token hkind⟩
  rw [hn, Tree.leafTexts_leaf]

/-- The text that a token is written as stands for the token. -/
theorem Piece.Inner.weaves_token {p : Piece} (h : p.Inner share) {text : String}
    (ht : p.isToken text = true) : Layout.Weaves (.text text) p.node.leafTexts (share p.node) := by
  obtain ⟨hl, hc⟩ := h.of_isToken ht
  rw [hl, hc]
  exact weaves_text text

/-- A computation for each of several things, each result with its share. -/
theorem succeeds_mapM {α β : Type} {f : α → Except ShapeError β}
    {P : β → List String → Multiset Remark → Prop} {as : List α} {ls : List String}
    {cs : Multiset Remark}
    (h : Each (fun a ls cs => Succeeds (f a) (P · ls cs)) as ls cs) :
    Succeeds (as.mapM f) (Each P · ls cs) := by
  induction h with
  | nil =>
    rw [List.mapM_nil]
    exact .pure .nil
  | cons ha _ ih =>
    rw [List.mapM_cons]
    exact ha.bind fun b hb => ih.bind fun bs hbs => .pure (.cons hb hbs)

/-- Complete pieces, each with its own leaves and comments. -/
theorem each_yields {ps : List Piece} (h : ∀ p ∈ ps, p.Complete share) :
    Each (fun p => Yields (Piece.doc p)) ps (texts ps) (shares share ps) := by
  induction ps with
  | nil => exact .nil
  | cons p ps ih =>
    obtain ⟨hp, hps⟩ := List.forall_mem_cons.mp h
    have hboth := Each.cons (P := fun p => Yields (Piece.doc p)) hp.doc (ih hps)
    exact hboth.congr rfl (shares_cons p ps).symm

/-- The documents of complete pieces. -/
theorem yieldsAll_docs {ps : List Piece} (h : ∀ p ∈ ps, p.Complete share) :
    YieldsAll (docs ps) (texts ps) (shares share ps) :=
  succeeds_mapM (each_yields h)

/-- The leaves of pieces are those of their nodes. -/
theorem texts_eq_flatMap (ps : List Piece) :
    texts ps = (ps.map Piece.node).flatMap Tree.leafTexts := by
  rw [texts, List.flatMap_map]

/-- The comments of pieces are those of their nodes. -/
theorem shares_eq_sum (ps : List Piece) :
    shares share ps = ((ps.map Piece.node).map share).sum := by
  rw [shares, List.map_map]
  rfl

/-! ## Sites -/

/-- A node whose children are laid out completely. There are comments inside it only if it
has no named child. -/
structure Site.Ready (share : Tree → Multiset Remark) (s : Site) : Prop where
  nodes : s.children.map Piece.node = s.node.children
  inner : ∀ p ∈ s.children, p.Inner share
  vacant : s.comments.dangling ≠ [] → s.node.namedChildren = []

namespace Site.Ready

variable {s : Site}

/-- The children of a site that is ready are complete. -/
theorem complete (h : s.Ready share) : ∀ p ∈ s.children, p.Complete share :=
  fun p hp => (h.inner p hp).toComplete

/-- The named children of a site that is ready are complete. -/
theorem complete_named (h : s.Ready share) : ∀ p ∈ s.named, p.Complete share :=
  fun p hp => h.complete p (List.mem_of_mem_filter hp)

/-- There is nothing inside a node with a named child. -/
theorem dangling_eq_nil (h : s.Ready share) (hn : s.named ≠ []) : s.comments.dangling = [] := by
  have hmap : s.named.map Piece.node = s.node.namedChildren := by
    rw [Site.named, Tree.namedChildren, ← h.nodes, List.filter_map]
    rfl
  by_contra hd
  have hempty := h.vacant hd
  rw [← hmap, List.map_eq_nil_iff] at hempty
  exact hn hempty

/-- With a named child no comment of a site is left inside it. -/
theorem remarks_dangling_eq_zero (h : s.Ready share) (hn : s.named ≠ []) :
    remarks s.comments.dangling = 0 := by
  rw [h.dangling_eq_nil hn]
  rfl

end Site.Ready

end Pieces

end JavaFormat.Layout
