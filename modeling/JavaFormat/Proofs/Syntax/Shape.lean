import JavaFormat.Layout.Operators
import JavaFormat.Syntax.Tree

/-!
# Trees shaped by the grammar

The children of a node come in the order that the Java grammar gives them. Layout
relies on this where it prints children out of turn or writes a token instead of
printing it; `Allowed` says what each kind calls for there. Any children will do for
the kinds that are printed child by child.
-/

namespace JavaFormat

namespace Tree

/-- The texts of the leaves, from left to right. -/
def leafTexts (t : Tree) : List String := t.leaves.filterMap text?

/-- The leaves of several trees, one tree after the other. -/
theorem leavesOfAll_eq_flatMap (ts : List Tree) : leavesOfAll ts = ts.flatMap leaves := by
  induction ts with
  | nil => rfl
  | cons t ts ih => rw [leavesOfAll, ih, List.flatMap_cons]

/-- A leaf has its own text. -/
@[simp] theorem leafTexts_leaf (info : NodeInfo) (text : String) :
    (leaf info text).leafTexts = [text] := rfl

/-- A node has the texts of its children. -/
@[simp] theorem leafTexts_branch (info : NodeInfo) (ts : List Tree) :
    (branch info ts).leafTexts = ts.flatMap leafTexts := by
  cases ts with
  | nil => rfl
  | cons t ts =>
    rw [leafTexts, leaves, leavesOfAll_eq_flatMap, List.filterMap_append, List.flatMap_cons,
      List.filterMap_flatMap]
    rfl

/-- A token of the given text is a leaf. -/
theorem isToken_iff {t : Tree} {text : String} :
    t.isToken text = true ↔ ∃ info, t = leaf info text ∧ info.kind = .token := by
  cases t with
  | leaf info written =>
    simp only [isToken, kind, Tree.info, text?, Bool.and_eq_true, beq_iff_eq, Option.some.injEq,
      leaf.injEq]
    constructor
    · rintro ⟨hk, rfl⟩
      exact ⟨info, ⟨rfl, rfl⟩, hk⟩
    · rintro ⟨_, ⟨rfl, rfl⟩, hk⟩
      exact ⟨hk, rfl⟩
  | branch info ts => simp [isToken, text?]

/-- A token has the text that it is asked for. -/
theorem text?_of_isToken {t : Tree} {text : String} (h : t.isToken text = true) :
    t.text? = some text := by
  obtain ⟨info, rfl, -⟩ := isToken_iff.mp h
  rfl

/-- A token is not a node that the grammar names. -/
theorem isNamed_of_isToken {t : Tree} {text : String} (h : t.isToken text = true) :
    t.isNamed = false := by
  obtain ⟨info, rfl, hk⟩ := isToken_iff.mp h
  simp [isNamed, kind, Tree.info, hk]

end Tree

namespace Shape

/-- Named items with a single separator between neighbours; the flag tells whether
one more stands behind the last. -/
inductive Separated (separator : String) : Bool → List Tree → Prop
  | single {t} (ht : t.isNamed) : Separated separator false [t]
  | closed {t s} (ht : t.isNamed) (hs : s.isToken separator) : Separated separator true [t, s]
  | more {b t s ts} (ht : t.isNamed) (hs : s.isToken separator) (h : Separated separator b ts) :
    Separated separator b (t :: s :: ts)

/-- A list between two delimiters, which is empty or holds separated items. A
separator behind the last item is there only if `closable` is set. -/
def Delimited (opening closing separator : String) (closable : Bool) (ts : List Tree) : Prop :=
  ∃ first body last, ts = first :: (body ++ [last]) ∧ first.isToken opening ∧
    last.isToken closing ∧ (body = [] ∨ ∃ b ≤ closable, Separated separator b body)

/-- No token or other leaf that is written as a brace. -/
def Unbraced (ts : List Tree) : Prop := ∀ t ∈ ts, t.text? ≠ some "\x7b" ∧ t.text? ≠ some "\x7d"

/-- Members between braces. -/
def Braced (ts : List Tree) : Prop :=
  ∃ first items last, ts = first :: (items ++ [last]) ∧ first.isToken "\x7b" ∧
    last.isToken "\x7d" ∧ Unbraced items

/-- Constants and commas between braces, with what else is declared behind them. -/
def EnumBraced (ts : List Tree) : Prop :=
  ∃ first constants declarations last, ts = first :: (constants ++ declarations ++ [last]) ∧
    first.isToken "\x7b" ∧ last.isToken "\x7d" ∧ Unbraced (constants ++ declarations) ∧
    (∀ t ∈ constants, t.kind ≠ .enumBodyDeclarations) ∧
    (declarations = [] ∨ ∃ t, declarations = [t] ∧ t.kind = .enumBodyDeclarations)

/-- Modifiers if there are any, a head, clauses and a body. -/
def TypeDeclared (ts : List Tree) : Prop :=
  ∃ modifiers head clauses body, ts = modifiers ++ (head ++ (clauses ++ [body])) ∧
    (modifiers = [] ∨ ∃ t, modifiers = [t] ∧ t.kind = .modifiers) ∧
    (∀ t ∈ head, t.kind ≠ .modifiers ∧ t.kind.isHeaderClause = false ∧
      t.kind.isTypeBody = false) ∧
    (∀ t ∈ clauses, t.kind.isHeaderClause = true) ∧ body.kind.isTypeBody = true

/-- A name, its dimensions, and an initializer if there is one. -/
def Declarator (ts : List Tree) : Prop :=
  ∃ left right, ts = left ++ right ∧ (∀ t ∈ left, t.isToken "=" = false) ∧
    (right = [] ∨ ∃ sign value, right = [sign, value] ∧ sign.isToken "=")

/-- What the children of a node of the given kind have to be. No separator can stand behind the last
argument of a call or of a type. -/
def Allowed (kind : NodeKind) (ts : List Tree) : Prop :=
  match kind with
  | .modifiers | .lambdaExpression | .objectCreationExpression => ts ≠ []
  | .classBody | .interfaceBody | .annotationTypeBody | .block | .constructorBody | .switchBlock
  | .moduleBody => Braced ts
  | .enumBody => EnumBraced ts
  | .enumBodyDeclarations => ∃ semicolon items, ts = semicolon :: items ∧ semicolon.isToken ";"
  | .classDeclaration | .interfaceDeclaration | .enumDeclaration | .recordDeclaration
  | .annotationTypeDeclaration => TypeDeclared ts
  | .variableDeclarator => Declarator ts
  | .formalParameters | .annotationArgumentList | .recordPatternBody =>
    Delimited "(" ")" "," true ts
  | .typeParameters => Delimited "<" ">" "," true ts
  | .elementValueArrayInitializer | .arrayInitializer => Delimited "\x7b" "\x7d" "," true ts
  | .resourceSpecification => Delimited "(" ")" ";" true ts
  | .argumentList => Delimited "(" ")" "," false ts
  | .typeArguments => Delimited "<" ">" "," false ts
  | .methodInvocation => ∃ t ∈ ts, t.isNamed
  | .assignmentExpression =>
    ∃ left operator right, ts = [left, operator, right] ∧ operator.kind = .token ∧
      operator.text ≠ ""
  | .binaryExpression =>
    ∃ left operator right, ts = [left, operator, right] ∧ left.isNamed ∧
      operator.kind = .token ∧ (Layout.precedence? operator.text).isSome
  | .ternaryExpression =>
    ∃ condition mark consequence colon alternative,
      ts = [condition, mark, consequence, colon, alternative] ∧ mark.isToken "?" ∧
        colon.isToken ":"
  | .unaryExpression => ∃ operator operand, ts = [operator, operand] ∧ operator.kind = .token
  | .parenthesizedExpression =>
    ∃ first inner last, ts = [first, inner, last] ∧ first.isToken "(" ∧ inner.isNamed ∧
      last.isToken ")"
  | .ifStatement =>
    ∃ keyword condition consequence, ts = [keyword, condition, consequence] ∨
      ∃ further alternative, ts = [keyword, condition, consequence, further, alternative]
  | .whileStatement | .forStatement | .enhancedForStatement | .doStatement => 2 ≤ ts.length
  | _ => True

end Shape

namespace Tree

/-- A leaf is a token or a verbatim node, and any other node has the children that
its kind calls for. -/
def Regular : Tree → Prop
  | .leaf info _ => info.kind = .token ∨ info.kind.isVerbatim = true
  | .branch info ts => info.kind ≠ .token ∧ info.kind.isVerbatim = false ∧
      Shape.Allowed info.kind ts

section Regular

variable {t : Tree}

/-- A node that is no leaf by its kind is a branch. -/
theorem Regular.exists_branch (h : t.Regular) (ht : t.kind ≠ .token)
    (hv : t.kind.isVerbatim = false) : ∃ info ts, t = .branch info ts := by
  cases t with
  | leaf info text =>
    rcases h with hk | hk
    · exact absurd hk ht
    · have hv : info.kind.isVerbatim = false := hv
      rw [hk] at hv
      cases hv
  | branch info ts => exact ⟨info, ts, rfl⟩

/-- A leaf has none of the kinds of nodes with children. -/
theorem Regular.kind_ne_of_leaf {info : NodeInfo} {text : String} (h : (leaf info text).Regular)
    {k : NodeKind} (ht : k ≠ .token) (hv : k.isVerbatim = false) : info.kind ≠ k := by
  rintro rfl
  obtain ⟨_, _, hbranch⟩ := h.exists_branch ht hv
  cases hbranch

/-- A node that is no leaf by its kind has the children that its kind calls for. -/
theorem Regular.allowed (h : t.Regular) (ht : t.kind ≠ .token) (hv : t.kind.isVerbatim = false) :
    Shape.Allowed t.kind t.children := by
  obtain ⟨info, ts, rfl⟩ := h.exists_branch ht hv
  exact h.2.2

/-- The leaves of a node that is no leaf by its kind are those of its children. -/
theorem Regular.leafTexts_eq (h : t.Regular) (ht : t.kind ≠ .token)
    (hv : t.kind.isVerbatim = false) : t.leafTexts = t.children.flatMap leafTexts := by
  obtain ⟨info, ts, rfl⟩ := h.exists_branch ht hv
  exact leafTexts_branch info ts

end Regular

/-- A tree with the shape that the Java grammar gives it. -/
def WellShaped (t : Tree) : Prop := ∀ u ∈ t.nodes, u.Regular

/-- All nodes of several trees, one tree after the other. -/
theorem nodesOfAll_eq_flatMap (ts : List Tree) : nodesOfAll ts = ts.flatMap nodes := by
  induction ts with
  | nil => rfl
  | cons t ts ih => rw [nodesOfAll, ih, List.flatMap_cons]

/-- The nodes of one of several trees. -/
theorem mem_nodesOfAll_of_mem {ts : List Tree} {t u : Tree} (ht : t ∈ ts) (hu : u ∈ t.nodes) :
    u ∈ nodesOfAll ts := by
  rw [nodesOfAll_eq_flatMap]
  exact List.mem_flatMap.mpr ⟨t, ht, hu⟩

/-- The root is one of the nodes. -/
theorem mem_nodes_self (t : Tree) : t ∈ t.nodes := by
  cases t <;> simp [nodes]

/-- The nodes below a child are nodes of the tree. -/
theorem mem_nodes_of_child {info : NodeInfo} {ts : List Tree} {t u : Tree} (ht : t ∈ ts)
    (hu : u ∈ t.nodes) : u ∈ (branch info ts).nodes := by
  rw [nodes, nodesOfAll_eq_flatMap]
  exact List.mem_append_left _ (List.mem_flatMap.mpr ⟨t, ht, hu⟩)

/-- A child is one of the nodes. -/
theorem mem_nodes_of_mem_children {t u : Tree} (hu : u ∈ t.children) : u ∈ t.nodes := by
  cases t with
  | leaf info text => cases hu
  | branch info ts => exact mem_nodes_of_child hu u.mem_nodes_self

mutual

/-- The nodes below a node of a tree are nodes of the tree. -/
theorem mem_nodes_trans : ∀ {t u v : Tree}, u ∈ t.nodes → v ∈ u.nodes → v ∈ t.nodes
  | .leaf info text, u, v, hu, hv => by
    obtain rfl := List.mem_singleton.mp hu
    exact hv
  | .branch info ts, u, v, hu, hv => by
    rw [nodes] at hu
    rcases List.mem_append.mp hu with hu | hu
    · rw [nodes]
      exact List.mem_append_left _ (mem_nodesOfAll_trans hu hv)
    · obtain rfl := List.mem_singleton.mp hu
      exact hv

/-- A node below one of several trees has all its nodes below that tree. -/
theorem mem_nodesOfAll_trans : ∀ {ts : List Tree} {u v : Tree}, u ∈ nodesOfAll ts →
    v ∈ u.nodes → v ∈ nodesOfAll ts
  | [], _, _, hu, _ => by cases hu
  | t :: ts, u, v, hu, hv => by
    rw [nodesOfAll] at hu ⊢
    rcases List.mem_append.mp hu with hu | hu
    · exact List.mem_append_left _ (mem_nodes_trans hu hv)
    · exact List.mem_append_right _ (mem_nodesOfAll_trans hu hv)

end

/-- A node of a tree is the root, or a node of one of the children. -/
theorem mem_nodes_iff {t u : Tree} : u ∈ t.nodes ↔ u = t ∨ ∃ v ∈ t.children, u ∈ v.nodes := by
  cases t with
  | leaf info text => simp [nodes, children]
  | branch info ts =>
    rw [nodes, nodesOfAll_eq_flatMap, List.mem_append, List.mem_flatMap, List.mem_singleton, or_comm]
    rfl

mutual

/-- What holds of a tree if it holds of its children holds of all trees. -/
theorem induction_children {motive : Tree → Prop}
    (step : ∀ t : Tree, (∀ u ∈ t.children, motive u) → motive t) : ∀ t, motive t
  | .leaf info text => step _ fun u hu => by cases hu
  | .branch info ts => step _ (forall_mem_induction_children step ts)

/-- An induction over trees, for every tree of a list. -/
theorem forall_mem_induction_children {motive : Tree → Prop}
    (step : ∀ t : Tree, (∀ u ∈ t.children, motive u) → motive t) :
    ∀ ts : List Tree, ∀ t ∈ ts, motive t
  | [], _, ht => by cases ht
  | t :: ts, u, hu => by
    rcases List.mem_cons.mp hu with heq | hu
    · rw [heq]
      exact induction_children step t
    · exact forall_mem_induction_children step ts u hu

end

/-- A node without children is its only leaf. -/
theorem leaves_of_children_eq_nil {t : Tree} (h : t.children = []) : t.leaves = [t] := by
  cases t with
  | leaf info text => rfl
  | branch info ts =>
    obtain rfl : ts = [] := h
    rfl

/-- The leaves of a node with children are those of its children. -/
theorem leaves_eq_of_children {t : Tree} (h : t.children ≠ []) :
    t.leaves = t.children.flatMap leaves := by
  cases t with
  | leaf info text => exact absurd rfl h
  | branch info ts =>
    cases ts with
    | nil => exact absurd rfl h
    | cons t ts => rw [leaves, leavesOfAll_eq_flatMap, children, List.flatMap_cons]

/-- The leaves of a tree are nodes of it. -/
theorem mem_nodes_of_mem_leaves {t u : Tree} (hu : u ∈ t.leaves) : u ∈ t.nodes := by
  induction t using Tree.induction_children with
  | step t ih =>
    by_cases hchildren : t.children = []
    · rw [leaves_of_children_eq_nil hchildren] at hu
      rw [List.mem_singleton.mp hu]
      exact t.mem_nodes_self
    · rw [leaves_eq_of_children hchildren] at hu
      obtain ⟨v, hv, hu⟩ := List.mem_flatMap.mp hu
      exact mem_nodes_iff.mpr (.inr ⟨v, hv, ih v hv hu⟩)

/-- A leaf is well shaped if it is a token or a verbatim node. -/
@[simp] theorem wellShaped_leaf_iff {info : NodeInfo} {text : String} :
    (leaf info text).WellShaped ↔ (leaf info text).Regular := by
  simp [WellShaped, nodes]

/-- A branch is well shaped if its children are and are what its kind calls for. -/
@[simp] theorem wellShaped_branch_iff {info : NodeInfo} {ts : List Tree} :
    (branch info ts).WellShaped ↔ (branch info ts).Regular ∧ ∀ t ∈ ts, t.WellShaped := by
  constructor
  · intro h
    exact ⟨h _ (mem_nodes_self _), fun t ht u hu => h u (mem_nodes_of_child ht hu)⟩
  · rintro ⟨hregular, hts⟩ u hu
    rw [nodes, nodesOfAll_eq_flatMap] at hu
    rcases List.mem_append.mp hu with hu | hu
    · obtain ⟨t, ht, hu⟩ := List.mem_flatMap.mp hu
      exact hts t ht u hu
    · obtain rfl := List.mem_singleton.mp hu
      exact hregular

end Tree

end JavaFormat
