import JavaFormat.Layout.Calls
import JavaFormat.Layout.ControlFlow
import JavaFormat.Layout.Modifiers
import JavaFormat.Layout.Operators
import JavaFormat.Layout.TypeDeclaration

/-!
# The layout of a tree

Every kind of node has its rule, and `layOut` applies the rules from the leaves
up. The document of a source puts its roots together: a compilation unit has a
rule of its own, the parts of a fragment stand one a line as they would in the
body that they were read in.
-/

namespace JavaFormat.Layout

open Doc

/-- The rule for the kind of the node: its document without its comments. -/
def Site.bare (s : Site) : Except ShapeError Doc :=
  match s.node.kind with
  | .token => return s.node.text
  | .identifier | .typeIdentifier | .decimalIntegerLiteral | .hexIntegerLiteral
  | .octalIntegerLiteral | .binaryIntegerLiteral | .decimalFloatingPointLiteral
  | .hexFloatingPointLiteral | .characterLiteral | .stringLiteral | .textBlock | .trueLiteral
  | .falseLiteral | .nullLiteral | .thisKeyword | .superKeyword | .integralType
  | .floatingPointType | .booleanType | .voidType | .asterisk | .underscorePattern
  | .requiresModifier => return ofLines s.node.text
  | .program => s.program
  | .packageDeclaration | .importDeclaration | .fieldDeclaration | .constantDeclaration
  | .localVariableDeclaration | .superclass | .superInterfaces | .extendsInterfaces | .permits
  | .typeList | .throws | .defaultValue | .enumConstant | .formalParameter | .spreadParameter
  | .receiverParameter | .staticInitializer | .elementValuePair => s.sequence .standard
  | .annotatedType | .wildcard | .typeParameter | .typeBound | .pattern | .typePattern
  | .recordPatternComponent | .moduleDeclaration | .moduleDirective | .requiresModuleDirective
  | .exportsModuleDirective | .opensModuleDirective | .usesModuleDirective
  | .providesModuleDirective => s.sequence .standard
  | .expressionStatement | .returnStatement | .throwStatement | .yieldStatement
  | .breakStatement | .continueStatement | .assertStatement | .synchronizedStatement
  | .tryStatement | .tryWithResourcesStatement | .catchClause | .catchFormalParameter
  | .catchType | .finallyClause | .resource | .switchRule | .switchLabel | .guard =>
    s.sequence .standard
  | .castExpression | .instanceofExpression | .lambdaExpression | .inferredParameters
  | .objectCreationExpression | .arrayCreationExpression | .switchExpression =>
    s.sequence .standard
  | .methodDeclaration | .constructorDeclaration | .compactConstructorDeclaration
  | .annotationTypeElementDeclaration => s.sequence .ofMethod
  | .labeledStatement => s.sequence .ofLabel
  | .genericType | .scopedTypeIdentifier | .scopedIdentifier | .arrayType | .dimensionsExpr
  | .annotationCall | .annotationMarker | .recordPattern => tight s.children
  | .updateExpression | .fieldAccess | .arrayAccess | .methodReference | .classLiteral
  | .explicitConstructorInvocation | .templateExpression => tight s.children
  | .dimensions => s.dimensions
  | .classDeclaration | .interfaceDeclaration | .enumDeclaration | .recordDeclaration
  | .annotationTypeDeclaration => s.typeDeclaration
  | .classBody | .interfaceBody | .annotationTypeBody => s.body Gap.ofMembers
  | .block | .constructorBody | .switchBlock | .moduleBody => s.body Gap.none
  | .enumBody => s.enumBody
  | .enumBodyDeclarations => s.enumDeclarations
  | .modifiers => s.modifiers
  | .variableDeclarator => s.variableDeclarator
  | .formalParameters | .annotationArgumentList | .recordPatternBody => s.delimited .parenthesized
  | .typeParameters => s.delimited { opening := "<", closing := ">" }
  | .elementValueArrayInitializer => s.delimited .braced
  | .resourceSpecification => s.delimited { ListStyle.parenthesized with separator := ";" }
  | .typeArguments => s.typeArguments
  | .arrayInitializer => s.arrayInitializer
  | .argumentList => s.arguments
  | .methodInvocation => s.methodInvocation
  | .assignmentExpression => s.assignment
  | .binaryExpression => s.binary
  | .ternaryExpression => s.ternary
  | .unaryExpression => s.unary
  | .parenthesizedExpression => s.parenthesized
  | .ifStatement => s.ifStatement
  | .whileStatement | .forStatement | .enhancedForStatement => s.loop
  | .doStatement => s.doLoop
  | .switchBlockStatementGroup => s.switchGroup

/-- The piece of a node whose children are laid out already. -/
def Site.piece (s : Site) : Piece where
  node := s.node
  comments := s.comments
  bare := s.bare
  operators :=
    if s.node.kind = .binaryExpression then some (operatorChain s.comments s.children) else none
  calls := if s.node.kind = .methodInvocation then callChain? s.comments s.children else none

/-- What the layout of a whole source draws on. -/
structure Scene where
  source : Source
  attachments : Attachments
  /-- The numbers of the roots. -/
  roots : List Nat

/-- The site of a node below a node of kind `parent`. -/
def Scene.site (scene : Scene) (parent : Option NodeKind) (node : Tree) (children : List Piece) :
    Site where
  source := scene.source
  roots := scene.roots
  parent := parent
  node := node
  comments := scene.attachments.at node.index
  children := children

mutual

/-- Lay out a tree below a node of kind `parent`. -/
def layOut (scene : Scene) (parent : Option NodeKind) : Tree → Piece
  | .leaf info written => (scene.site parent (.leaf info written) []).piece
  | .branch info children =>
    (scene.site parent (.branch info children) (layOutAll scene (some info.kind) children)).piece

/-- Lay out the trees below a node of kind `parent`. -/
def layOutAll (scene : Scene) (parent : Option NodeKind) : List Tree → List Piece
  | [] => []
  | t :: ts => layOut scene parent t :: layOutAll scene parent ts

end

/-- The scene of a parsed source. -/
def Scene.of (p : Parsed) (attachments : Attachments) : Scene where
  source := p.source
  attachments := attachments
  roots := p.roots.map Tree.index

/-- The gap between the parts of a fragment. -/
def fragmentGap (parent : Option NodeKind) : Gap :=
  if parent.any NodeKind.isTypeBody then Gap.ofMembers else Gap.none

/-- The parts of a fragment, one a line. -/
def fragmentDoc (p : Parsed) (pieces : List Piece) : Except ShapeError Doc := do
  return cat [← members p.source (fragmentGap p.rootParent) pieces, hardline]

/-- The document of a source with its comments attached. -/
def document (p : Parsed) (attachments : Attachments) : Except ShapeError Doc :=
  match layOutAll (Scene.of p attachments) p.rootParent p.roots with
  | [] => return ""
  | [piece] => if piece.kind = .program then piece.doc else fragmentDoc p [piece]
  | pieces => fragmentDoc p pieces

end JavaFormat.Layout
