/-!
# Kinds of syntax nodes

Every named node of the grammar has a kind, and one more kind stands for the
anonymous tokens. The grammar's own name of a kind is its `name`. The classes of
kinds that comment placement and layout speak of are predicates below.
-/

namespace JavaFormat

/-- The kind of a syntax node. -/
inductive NodeKind where
  | token
  | program
  -- Leaves printed from their source text
  | identifier
  | typeIdentifier
  | decimalIntegerLiteral
  | hexIntegerLiteral
  | octalIntegerLiteral
  | binaryIntegerLiteral
  | decimalFloatingPointLiteral
  | hexFloatingPointLiteral
  | characterLiteral
  | stringLiteral
  | textBlock
  | trueLiteral
  | falseLiteral
  | nullLiteral
  | thisKeyword
  | superKeyword
  | integralType
  | floatingPointType
  | booleanType
  | voidType
  | asterisk
  | underscorePattern
  | requiresModifier
  -- Packages, imports and modules
  | packageDeclaration
  | importDeclaration
  | scopedIdentifier
  | moduleDeclaration
  | moduleBody
  | moduleDirective
  | requiresModuleDirective
  | exportsModuleDirective
  | opensModuleDirective
  | usesModuleDirective
  | providesModuleDirective
  -- Type declarations and bodies
  | classDeclaration
  | interfaceDeclaration
  | enumDeclaration
  | recordDeclaration
  | annotationTypeDeclaration
  | classBody
  | interfaceBody
  | enumBody
  | enumBodyDeclarations
  | enumConstant
  | annotationTypeBody
  | annotationTypeElementDeclaration
  | defaultValue
  | superclass
  | superInterfaces
  | extendsInterfaces
  | permits
  | typeList
  -- Members
  | modifiers
  | fieldDeclaration
  | constantDeclaration
  | variableDeclarator
  | methodDeclaration
  | constructorDeclaration
  | compactConstructorDeclaration
  | constructorBody
  | explicitConstructorInvocation
  | staticInitializer
  | formalParameters
  | formalParameter
  | spreadParameter
  | receiverParameter
  | throws
  -- Annotations
  | annotationCall
  | annotationMarker
  | annotationArgumentList
  | elementValuePair
  | elementValueArrayInitializer
  -- Types
  | genericType
  | scopedTypeIdentifier
  | arrayType
  | annotatedType
  | dimensions
  | dimensionsExpr
  | typeArguments
  | wildcard
  | typeParameters
  | typeParameter
  | typeBound
  -- Statements
  | block
  | localVariableDeclaration
  | expressionStatement
  | labeledStatement
  | ifStatement
  | whileStatement
  | doStatement
  | forStatement
  | enhancedForStatement
  | assertStatement
  | breakStatement
  | continueStatement
  | returnStatement
  | yieldStatement
  | throwStatement
  | synchronizedStatement
  | tryStatement
  | tryWithResourcesStatement
  | catchClause
  | catchFormalParameter
  | catchType
  | finallyClause
  | resourceSpecification
  | resource
  | switchExpression
  | switchBlock
  | switchBlockStatementGroup
  | switchRule
  | switchLabel
  | guard
  -- Patterns
  | pattern
  | typePattern
  | recordPattern
  | recordPatternBody
  | recordPatternComponent
  -- Expressions
  | assignmentExpression
  | binaryExpression
  | instanceofExpression
  | lambdaExpression
  | inferredParameters
  | ternaryExpression
  | unaryExpression
  | updateExpression
  | castExpression
  | parenthesizedExpression
  | objectCreationExpression
  | arrayCreationExpression
  | arrayInitializer
  | arrayAccess
  | fieldAccess
  | methodInvocation
  | argumentList
  | methodReference
  | classLiteral
  | templateExpression
deriving DecidableEq, Repr

namespace NodeKind

/-- The name that the grammar gives to a kind. -/
def name : NodeKind → String
  | .token => "<token>"
  | .program => "program"
  | .identifier => "identifier"
  | .typeIdentifier => "type_identifier"
  | .decimalIntegerLiteral => "decimal_integer_literal"
  | .hexIntegerLiteral => "hex_integer_literal"
  | .octalIntegerLiteral => "octal_integer_literal"
  | .binaryIntegerLiteral => "binary_integer_literal"
  | .decimalFloatingPointLiteral => "decimal_floating_point_literal"
  | .hexFloatingPointLiteral => "hex_floating_point_literal"
  | .characterLiteral => "character_literal"
  | .stringLiteral => "string_literal"
  | .textBlock => "text_block"
  | .trueLiteral => "true"
  | .falseLiteral => "false"
  | .nullLiteral => "null_literal"
  | .thisKeyword => "this"
  | .superKeyword => "super"
  | .integralType => "integral_type"
  | .floatingPointType => "floating_point_type"
  | .booleanType => "boolean_type"
  | .voidType => "void_type"
  | .asterisk => "asterisk"
  | .underscorePattern => "underscore_pattern"
  | .requiresModifier => "requires_modifier"
  | .packageDeclaration => "package_declaration"
  | .importDeclaration => "import_declaration"
  | .scopedIdentifier => "scoped_identifier"
  | .moduleDeclaration => "module_declaration"
  | .moduleBody => "module_body"
  | .moduleDirective => "module_directive"
  | .requiresModuleDirective => "requires_module_directive"
  | .exportsModuleDirective => "exports_module_directive"
  | .opensModuleDirective => "opens_module_directive"
  | .usesModuleDirective => "uses_module_directive"
  | .providesModuleDirective => "provides_module_directive"
  | .classDeclaration => "class_declaration"
  | .interfaceDeclaration => "interface_declaration"
  | .enumDeclaration => "enum_declaration"
  | .recordDeclaration => "record_declaration"
  | .annotationTypeDeclaration => "annotation_type_declaration"
  | .classBody => "class_body"
  | .interfaceBody => "interface_body"
  | .enumBody => "enum_body"
  | .enumBodyDeclarations => "enum_body_declarations"
  | .enumConstant => "enum_constant"
  | .annotationTypeBody => "annotation_type_body"
  | .annotationTypeElementDeclaration => "annotation_type_element_declaration"
  | .defaultValue => "default_value"
  | .superclass => "superclass"
  | .superInterfaces => "super_interfaces"
  | .extendsInterfaces => "extends_interfaces"
  | .permits => "permits"
  | .typeList => "type_list"
  | .modifiers => "modifiers"
  | .fieldDeclaration => "field_declaration"
  | .constantDeclaration => "constant_declaration"
  | .variableDeclarator => "variable_declarator"
  | .methodDeclaration => "method_declaration"
  | .constructorDeclaration => "constructor_declaration"
  | .compactConstructorDeclaration => "compact_constructor_declaration"
  | .constructorBody => "constructor_body"
  | .explicitConstructorInvocation => "explicit_constructor_invocation"
  | .staticInitializer => "static_initializer"
  | .formalParameters => "formal_parameters"
  | .formalParameter => "formal_parameter"
  | .spreadParameter => "spread_parameter"
  | .receiverParameter => "receiver_parameter"
  | .throws => "throws"
  | .annotationCall => "annotation"
  | .annotationMarker => "marker_annotation"
  | .annotationArgumentList => "annotation_argument_list"
  | .elementValuePair => "element_value_pair"
  | .elementValueArrayInitializer => "element_value_array_initializer"
  | .genericType => "generic_type"
  | .scopedTypeIdentifier => "scoped_type_identifier"
  | .arrayType => "array_type"
  | .annotatedType => "annotated_type"
  | .dimensions => "dimensions"
  | .dimensionsExpr => "dimensions_expr"
  | .typeArguments => "type_arguments"
  | .wildcard => "wildcard"
  | .typeParameters => "type_parameters"
  | .typeParameter => "type_parameter"
  | .typeBound => "type_bound"
  | .block => "block"
  | .localVariableDeclaration => "local_variable_declaration"
  | .expressionStatement => "expression_statement"
  | .labeledStatement => "labeled_statement"
  | .ifStatement => "if_statement"
  | .whileStatement => "while_statement"
  | .doStatement => "do_statement"
  | .forStatement => "for_statement"
  | .enhancedForStatement => "enhanced_for_statement"
  | .assertStatement => "assert_statement"
  | .breakStatement => "break_statement"
  | .continueStatement => "continue_statement"
  | .returnStatement => "return_statement"
  | .yieldStatement => "yield_statement"
  | .throwStatement => "throw_statement"
  | .synchronizedStatement => "synchronized_statement"
  | .tryStatement => "try_statement"
  | .tryWithResourcesStatement => "try_with_resources_statement"
  | .catchClause => "catch_clause"
  | .catchFormalParameter => "catch_formal_parameter"
  | .catchType => "catch_type"
  | .finallyClause => "finally_clause"
  | .resourceSpecification => "resource_specification"
  | .resource => "resource"
  | .switchExpression => "switch_expression"
  | .switchBlock => "switch_block"
  | .switchBlockStatementGroup => "switch_block_statement_group"
  | .switchRule => "switch_rule"
  | .switchLabel => "switch_label"
  | .guard => "guard"
  | .pattern => "pattern"
  | .typePattern => "type_pattern"
  | .recordPattern => "record_pattern"
  | .recordPatternBody => "record_pattern_body"
  | .recordPatternComponent => "record_pattern_component"
  | .assignmentExpression => "assignment_expression"
  | .binaryExpression => "binary_expression"
  | .instanceofExpression => "instanceof_expression"
  | .lambdaExpression => "lambda_expression"
  | .inferredParameters => "inferred_parameters"
  | .ternaryExpression => "ternary_expression"
  | .unaryExpression => "unary_expression"
  | .updateExpression => "update_expression"
  | .castExpression => "cast_expression"
  | .parenthesizedExpression => "parenthesized_expression"
  | .objectCreationExpression => "object_creation_expression"
  | .arrayCreationExpression => "array_creation_expression"
  | .arrayInitializer => "array_initializer"
  | .arrayAccess => "array_access"
  | .fieldAccess => "field_access"
  | .methodInvocation => "method_invocation"
  | .argumentList => "argument_list"
  | .methodReference => "method_reference"
  | .classLiteral => "class_literal"
  | .templateExpression => "template_expression"

/-- All kinds. -/
def all : List NodeKind := [
  .token, .program, .identifier, .typeIdentifier, .decimalIntegerLiteral, .hexIntegerLiteral,
  .octalIntegerLiteral, .binaryIntegerLiteral, .decimalFloatingPointLiteral,
  .hexFloatingPointLiteral, .characterLiteral, .stringLiteral, .textBlock, .trueLiteral,
  .falseLiteral, .nullLiteral, .thisKeyword, .superKeyword, .integralType, .floatingPointType,
  .booleanType, .voidType, .asterisk, .underscorePattern, .requiresModifier, .packageDeclaration,
  .importDeclaration, .scopedIdentifier, .moduleDeclaration, .moduleBody, .moduleDirective,
  .requiresModuleDirective, .exportsModuleDirective, .opensModuleDirective, .usesModuleDirective,
  .providesModuleDirective, .classDeclaration, .interfaceDeclaration, .enumDeclaration,
  .recordDeclaration, .annotationTypeDeclaration, .classBody, .interfaceBody, .enumBody,
  .enumBodyDeclarations, .enumConstant, .annotationTypeBody, .annotationTypeElementDeclaration,
  .defaultValue, .superclass, .superInterfaces, .extendsInterfaces, .permits, .typeList,
  .modifiers, .fieldDeclaration, .constantDeclaration, .variableDeclarator, .methodDeclaration,
  .constructorDeclaration, .compactConstructorDeclaration, .constructorBody,
  .explicitConstructorInvocation, .staticInitializer, .formalParameters, .formalParameter,
  .spreadParameter, .receiverParameter, .throws, .annotationCall, .annotationMarker,
  .annotationArgumentList, .elementValuePair, .elementValueArrayInitializer, .genericType,
  .scopedTypeIdentifier, .arrayType, .annotatedType, .dimensions, .dimensionsExpr, .typeArguments,
  .wildcard, .typeParameters, .typeParameter, .typeBound, .block, .localVariableDeclaration,
  .expressionStatement, .labeledStatement, .ifStatement, .whileStatement, .doStatement,
  .forStatement, .enhancedForStatement, .assertStatement, .breakStatement, .continueStatement,
  .returnStatement, .yieldStatement, .throwStatement, .synchronizedStatement, .tryStatement,
  .tryWithResourcesStatement, .catchClause, .catchFormalParameter, .catchType, .finallyClause,
  .resourceSpecification, .resource, .switchExpression, .switchBlock, .switchBlockStatementGroup,
  .switchRule, .switchLabel, .guard, .pattern, .typePattern, .recordPattern, .recordPatternBody,
  .recordPatternComponent, .assignmentExpression, .binaryExpression, .instanceofExpression,
  .lambdaExpression, .inferredParameters, .ternaryExpression, .unaryExpression, .updateExpression,
  .castExpression, .parenthesizedExpression, .objectCreationExpression, .arrayCreationExpression,
  .arrayInitializer, .arrayAccess, .fieldAccess, .methodInvocation, .argumentList,
  .methodReference, .classLiteral, .templateExpression]

/-- The kind of a name of the grammar, if it has one. -/
def ofName? (s : String) : Option NodeKind := all.find? (·.name == s)

/-- Leaves that are printed as they are written. -/
def isVerbatim : NodeKind → Bool
  | .identifier | .typeIdentifier | .decimalIntegerLiteral | .hexIntegerLiteral
  | .octalIntegerLiteral | .binaryIntegerLiteral | .decimalFloatingPointLiteral
  | .hexFloatingPointLiteral | .characterLiteral | .stringLiteral | .textBlock
  | .trueLiteral | .falseLiteral | .nullLiteral | .thisKeyword | .superKeyword
  | .integralType | .floatingPointType | .booleanType | .voidType | .asterisk
  | .underscorePattern | .requiresModifier => true
  | _ => false

/-- Literals. -/
def isLiteral : NodeKind → Bool
  | .decimalIntegerLiteral | .hexIntegerLiteral | .octalIntegerLiteral
  | .binaryIntegerLiteral | .decimalFloatingPointLiteral | .hexFloatingPointLiteral
  | .characterLiteral | .stringLiteral | .trueLiteral | .falseLiteral | .nullLiteral => true
  | _ => false

/-- Annotations, with arguments or without. -/
def isAnnotationUse : NodeKind → Bool
  | .annotationCall | .annotationMarker => true
  | _ => false

/-- Bodies between braces whose opening brace stays on the line before. -/
def isBody : NodeKind → Bool
  | .block | .classBody | .interfaceBody | .enumBody | .annotationTypeBody
  | .constructorBody | .switchBlock | .moduleBody => true
  | _ => false

/-- Nodes whose children are members, one a line. -/
def isMemberList (k : NodeKind) : Bool :=
  k.isBody || k == .program || k == .switchBlockStatementGroup

/-- Declarations of types. -/
def isTypeDeclaration : NodeKind → Bool
  | .classDeclaration | .interfaceDeclaration | .enumDeclaration | .recordDeclaration
  | .annotationTypeDeclaration => true
  | _ => false

/-- Bodies of type declarations. -/
def isTypeBody : NodeKind → Bool
  | .classBody | .interfaceBody | .enumBody | .annotationTypeBody => true
  | _ => false

/-- The clauses between the name of a type and its body. -/
def isHeaderClause : NodeKind → Bool
  | .superclass | .superInterfaces | .extendsInterfaces | .permits => true
  | _ => false

end NodeKind

end JavaFormat
