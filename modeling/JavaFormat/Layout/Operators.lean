import JavaFormat.Layout.Spacing

/-!
# Operators

A chain of binary operators of one level of precedence is laid out as a whole and
broken behind each operator. Such a chain leans to the left in the tree: its
links are found by going down the left operands. A chain is indented unless the
construct around it has done so already.
-/

namespace JavaFormat.Layout

open Doc

/-- The level of precedence of a binary operator. -/
def precedence? : String → Option Nat
  | "||" => some 1
  | "&&" => some 2
  | "|" => some 3
  | "^" => some 4
  | "&" => some 5
  | "==" | "!=" => some 6
  | "<" | ">" | "<=" | ">=" => some 7
  | "<<" | ">>" | ">>>" => some 8
  | "+" | "-" => some 9
  | "*" | "/" | "%" => some 10
  | _ => none

/-- Right-hand sides that may move to the line behind the assignment operator. -/
def movesBehindAssignment : NodeKind → Bool
  | .binaryExpression | .ternaryExpression | .instanceofExpression => true
  | _ => false

/-- An assignment or an initialization. -/
def assignment (left : Doc) (operator : String) (right : Piece) : Except ShapeError Doc := do
  let value ← right.doc
  if movesBehindAssignment right.kind && right.comments.leading.isEmpty then
    return grouped [left, " ", operator, indented [space, value]]
  else return cat [left, " ", operator, " ", value]

/-- An assignment expression. -/
def Site.assignment (s : Site) : Except ShapeError Doc :=
  match s.children with
  | [left, operator, right] => do
    let target ← left.doc
    Layout.assignment target (if operator.text.isEmpty then "=" else operator.text) right
  | children => throw (.childCount 3 children.length)

/-- A variable with its initializer, if it has one. -/
def Site.variableDeclarator (s : Site) : Except ShapeError Doc := do
  let left ← docs (s.children.takeWhile fun p => !p.isToken "=")
  match s.children.dropWhile fun p => !p.isToken "=" with
  | [] => return cat left
  | _ :: right :: _ => Layout.assignment (cat left) "=" right
  | [_] => throw .noChild

/-- The operator of a binary expression and its right operand. -/
def operatorParts : List Piece → Except ShapeError (String × Doc)
  | [_, operator, right] => do
    let operand ← right.doc
    return (operator.text, operand)
  | children => throw (.childCount 3 children.length)

/-- The link that a binary expression ends with. -/
def operatorLink (comments : NodeComments) (children : List Piece) : OperatorLink where
  parts := operatorParts children
  leading := comments.leadingDoc
  trailing := trailingDoc comments.trailing

/-- A chain with one more link, or a chain of that link alone if its left operand
is no chain of the same level. -/
def extendChain (level : Nat) (left : Piece) (link : OperatorLink) :
    Except ShapeError OperatorChain :=
  match left.operators with
  | none => return ⟨level, left.doc, [], link⟩
  | some found => do
    let chain ← found
    if chain.level = level then return ⟨level, chain.first, chain.inner ++ [chain.last], link⟩
    else return ⟨level, left.doc, [], link⟩

/-- The chain that a binary expression is. -/
def operatorChain (comments : NodeComments) (children : List Piece) :
    Except ShapeError OperatorChain :=
  match children with
  | left :: operator :: _ =>
    match precedence? operator.text with
    | some level => extendChain level left (operatorLink comments children)
    | none => throw (.unknownOperator operator.text)
  | _ => throw .noChild

/-- An operator and its operand, the operand possibly on the next line. -/
def operation (operator : String) (operand : Doc) : Doc := cat [" ", operator, space, operand]

/-- A link that is not the last one, with the comments behind it. -/
def OperatorLink.doc (l : OperatorLink) : Except ShapeError Doc := do
  let (operator, operand) ← l.parts
  return operation operator (cat [operand, l.trailing])

/-- Parents that indent a chain themselves. -/
def alignsChain : NodeKind → Bool
  | .parenthesizedExpression | .variableDeclarator | .assignmentExpression
  | .elementValuePair => true
  | _ => false

/-- A chain of binary operators. The comments in front of its inner expressions go
in front of the whole. -/
def Site.binary (s : Site) : Except ShapeError Doc := do
  let chain ← operatorChain s.comments s.children
  let first ← chain.first
  let inner ← chain.inner.mapM OperatorLink.doc
  let (operator, operand) ← chain.last.parts
  let rest := inner ++ [operation operator operand]
  let leading := chain.inner.reverse.map OperatorLink.leading
  if s.parent.any alignsChain && !s.roots.contains s.node.index then
    return cat (leading ++ [grouped (first :: rest)])
  else return cat (leading ++ [grouped [first, indented rest]])

/-- A choice between two expressions. -/
def Site.ternary (s : Site) : Except ShapeError Doc :=
  match s.children with
  | [condition, _, consequence, _, alternative] => do
    let condition ← condition.doc
    let consequence ← consequence.doc
    let alternative ← alternative.doc
    return grouped [condition, indented [space, "? ", consequence, space, ": ", alternative]]
  | children => throw (.childCount 5 children.length)

/-- An expression between parentheses. -/
def Site.parenthesized (s : Site) : Except ShapeError Doc := do
  let contents ← docs s.named
  return grouped ["(", indented (softline :: contents), softline, ")"]

/-- Whether a sign in front of a text would be read together with it. -/
def wouldFuse (sign following : String) : Bool :=
  (sign == "+" || sign == "-") && sign.toList.isPrefixOf following.toList

/-- A sign or another operator in front of its operand. -/
def Site.unary (s : Site) : Except ShapeError Doc :=
  match s.children with
  | [operator, operand] => do
    let gap := if wouldFuse operator.text operand.node.firstLeaf.text then " " else ""
    let d ← operand.doc
    return cat [operator.text, gap, d]
  | children => throw (.childCount 2 children.length)

end JavaFormat.Layout
