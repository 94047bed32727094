import JavaFormat.Layout.Delimited

/-!
# Calls

A chain of calls leans to the left in the tree, like a chain of operators. A
chain of at least three calls is broken in front of each dot when it does not fit
on one line; its first call stays with a receiver that is a short name.

The last argument of a call, if it is a lambda with a block or an anonymous
class, stays next to the parentheses while the arguments before it fit on the
first line.
-/

namespace JavaFormat.Layout

open Doc

/-- Whether an argument may stay next to the parentheses. -/
def isHuggable (t : Tree) : Except ShapeError Bool :=
  let endsIn (kind : NodeKind) : Except ShapeError Bool :=
    match t.children.getLast? with
    | some last => return last.kind == kind
    | none => throw .noChild
  match t.kind with
  | .lambdaExpression => endsIn .block
  | .objectCreationExpression => endsIn .classBody
  | _ => return false

/-- Whether one of some arguments may stay next to the parentheses. -/
def anyHuggable : List Piece → Except ShapeError Bool
  | [] => return false
  | p :: ps => do
    if ← isHuggable p.node then return true
    else anyHuggable ps

/-- Whether the last of some arguments stays next to the parentheses: it may, no
other argument may, and there are no comments. -/
def hugsLast (items : List Piece) : Except ShapeError Bool :=
  match items.getLast? with
  | none => return false
  | some last => do
    if ← isHuggable last.node then
      let others ← anyHuggable items.dropLast
      return !others && !items.any Piece.hasComments
    else return false

/-- Documents with the last one as a group of its own. -/
def groupLast : List Doc → List Doc
  | [] => []
  | [d] => [grouped [d]]
  | d :: ds => d :: groupLast ds

/-- The arguments of a call. -/
def Site.arguments (s : Site) : Except ShapeError Doc := do
  if ← hugsLast s.named then
    let docs ← docs s.named
    let listed ← s.delimited .parenthesized
    return .choice [cat ["(", join ", " (groupLast docs), ")"], listed]
  else s.delimited .parenthesized

/-- The parts of a call behind its receiver: the comments in front of its name,
which go in front of the dot, and the dot, the name and the arguments. -/
def callParts : List Piece → Except ShapeError (List Doc × List Doc)
  | [] => return ([], [])
  | p :: ps =>
    if p.kind = .identifier && !p.comments.leading.isEmpty then do
      let d ← p.docWithoutLeading
      let (hoisted, parts) ← callParts ps
      return (hoisted ++ [p.comments.leadingDoc], d :: parts)
    else do
      let d ← p.doc
      let (hoisted, parts) ← callParts ps
      return (hoisted, d :: parts)

/-- The document of a call without its receiver. -/
def callDoc (children : List Piece) : Except ShapeError Doc := do
  let (hoisted, parts) ← callParts (children.drop 1)
  return cat (hoisted ++ parts)

/-- The receiver of a call, if it has one. -/
def receiver? : List Piece → Option Piece
  | object :: dot :: _ => if dot.isToken "." then some object else none
  | _ => none

/-- The link that a call ends with. -/
def callLink (comments : NodeComments) (children : List Piece) : CallLink where
  doc := callDoc children
  leading := comments.leadingDoc
  trailing := trailingDoc comments.trailing

/-- The chain that a call with a receiver is. -/
def callChain? (comments : NodeComments) (children : List Piece) : Option CallChain :=
  (receiver? children).map fun object =>
    let link := callLink comments children
    match object.calls with
    | some chain => ⟨chain.headKind, chain.head, chain.inner ++ [chain.last], link⟩
    | none => ⟨object.kind, object.doc, [], link⟩

/-- The number of calls from which on a chain is laid out as a whole. -/
def chainThreshold : Nat := 3

/-- The number of calls of a chain, a call at its head included. -/
def CallChain.callCount (c : CallChain) : Nat :=
  c.inner.length + 1 + (if c.headKind = .methodInvocation then 1 else 0)

/-- A link that is not the last one, with the comments behind it. -/
def CallLink.wrapped (l : CallLink) : Except ShapeError Doc := do
  return cat [← l.doc, l.trailing]

/-- Receivers that the first call stays with. -/
def keepsFirstCall : NodeKind → Bool
  | .identifier | .thisKeyword | .fieldAccess | .superKeyword => true
  | _ => false

/-- A receiver and its calls, the calls possibly one a line. -/
def brokenCalls (headKind : NodeKind) (head : Doc) (links : List Doc) : Doc :=
  let kept := if keepsFirstCall headKind then 1 else 0
  let head := if keepsFirstCall headKind then cat (head :: links.take 1) else head
  grouped [head, indented ((links.drop kept).map fun link => cat [softline, link])]

/-- A chain of calls. The comments in front of its inner calls go in front of the
whole. -/
def CallChain.doc (c : CallChain) : Except ShapeError Doc := do
  let inner ← c.inner.mapM CallLink.wrapped
  let last ← c.last.doc
  let head ← c.head
  return cat (c.inner.reverse.map CallLink.leading ++
    [brokenCalls c.headKind head (inner ++ [last])])

/-- A call. -/
def Site.methodInvocation (s : Site) : Except ShapeError Doc :=
  match callChain? s.comments s.children with
  | some chain => if chain.callCount < chainThreshold then tight s.children else chain.doc
  | none => tight s.children

end JavaFormat.Layout
