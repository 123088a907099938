import MessageKeys.Text.Basic

/-!
# Kinds of syntax nodes

The kinds of TypeScript and JavaScript syntax that name bindings, open scopes, make calls
or carry literals, and the fields through which a node refers to its children. All other
kinds only keep their name.
-/

namespace MessageKeys.Syntax

/-- The kind of a syntax node. -/
inductive Kind where
  | program
  | statementBlock
  | forStatement
  | forInStatement
  | catchClause
  | switchBody
  | classBody
  | functionDeclaration
  | generatorFunctionDeclaration
  | functionExpression
  | function
  | generatorFunction
  | arrowFunction
  | methodDefinition
  | identifier
  | propertyIdentifier
  | shorthandPropertyIdentifier
  | shorthandPropertyIdentifierPattern
  | number
  | string
  | stringFragment
  | escapeSequence
  | comment
  | callExpression
  | memberExpression
  | arguments
  | object
  | pair
  | thisExpression
  | objectPattern
  | arrayPattern
  | restPattern
  | pairPattern
  | objectAssignmentPattern
  | assignmentPattern
  | requiredParameter
  | optionalParameter
  | variableDeclarator
  | variableDeclaration
  | lexicalDeclaration
  | classDeclaration
  | abstractClassDeclaration
  | classExpression
  | publicFieldDefinition
  | fieldDefinition
  | importStatement
  | importClause
  | namespaceImport
  | namedImports
  | importSpecifier
  | exportStatement
  | exportClause
  | exportSpecifier
  | defaultKeyword
  | error
  | other (name : Text)
  deriving DecidableEq, Repr

namespace Kind

/-- The name of each kind in a syntax tree. -/
def names : List (String × Kind) :=
  [("program", program), ("statement_block", statementBlock), ("for_statement", forStatement),
    ("for_in_statement", forInStatement), ("catch_clause", catchClause),
    ("switch_body", switchBody), ("class_body", classBody),
    ("function_declaration", functionDeclaration),
    ("generator_function_declaration", generatorFunctionDeclaration),
    ("function_expression", functionExpression), ("function", function),
    ("generator_function", generatorFunction), ("arrow_function", arrowFunction),
    ("method_definition", methodDefinition), ("identifier", identifier),
    ("property_identifier", propertyIdentifier),
    ("shorthand_property_identifier", shorthandPropertyIdentifier),
    ("shorthand_property_identifier_pattern", shorthandPropertyIdentifierPattern),
    ("number", number), ("string", string), ("string_fragment", stringFragment),
    ("escape_sequence", escapeSequence), ("comment", comment),
    ("call_expression", callExpression), ("member_expression", memberExpression),
    ("arguments", arguments), ("object", object), ("pair", pair), ("this", thisExpression),
    ("object_pattern", objectPattern), ("array_pattern", arrayPattern),
    ("rest_pattern", restPattern), ("pair_pattern", pairPattern),
    ("object_assignment_pattern", objectAssignmentPattern),
    ("assignment_pattern", assignmentPattern), ("required_parameter", requiredParameter),
    ("optional_parameter", optionalParameter), ("variable_declarator", variableDeclarator),
    ("variable_declaration", variableDeclaration), ("lexical_declaration", lexicalDeclaration),
    ("class_declaration", classDeclaration),
    ("abstract_class_declaration", abstractClassDeclaration), ("class", classExpression),
    ("public_field_definition", publicFieldDefinition), ("field_definition", fieldDefinition),
    ("import_statement", importStatement), ("import_clause", importClause),
    ("namespace_import", namespaceImport), ("named_imports", namedImports),
    ("import_specifier", importSpecifier), ("export_statement", exportStatement),
    ("export_clause", exportClause), ("export_specifier", exportSpecifier),
    ("default", defaultKeyword), ("ERROR", error)]

/-- The spelling of each kind. -/
def spellings : List (Text × Kind) :=
  names.map fun entry => (Text.ofString entry.1, entry.2)

/-- The kind with a spelling. -/
def ofText (name : Text) : Kind :=
  match spellings.find? fun entry => entry.1 == name with
  | some entry => entry.2
  | none => other name

/-- The spelling of a kind. -/
def toText : Kind → Text
  | other name => name
  | kind =>
      match spellings.find? fun entry => entry.2 == kind with
      | some entry => entry.1
      | none => []

/-- Functions, methods and arrows: what can receive a translator as an argument. -/
def isFunction : Kind → Bool
  | functionDeclaration | generatorFunctionDeclaration | functionExpression | function
  | generatorFunction | arrowFunction | methodDefinition => true
  | _ => false

/-- Function declarations, which are visible in the scope around them. -/
def isFunctionDeclaration : Kind → Bool
  | functionDeclaration | generatorFunctionDeclaration => true
  | _ => false

/-- Function expressions, whose own name is visible inside them only. -/
def isNamedFunctionExpression : Kind → Bool
  | functionExpression | function | generatorFunction => true
  | _ => false

/-- Nodes that own the names declared directly in them. -/
def isScope : Kind → Bool
  | program | statementBlock | forStatement | forInStatement | catchClause | switchBody
  | classBody => true
  | kind => kind.isFunction

/-- Nodes that own the `var` declarations inside them. -/
def isHoistTarget : Kind → Bool
  | program => true
  | kind => kind.isFunction

/-- Nodes that can refer to a binding. -/
def isReference : Kind → Bool
  | identifier | shorthandPropertyIdentifier => true
  | _ => false

/-- Nodes whose text is the name of a property. -/
def isNameKey : Kind → Bool
  | propertyIdentifier | shorthandPropertyIdentifier | shorthandPropertyIdentifierPattern
  | identifier | number => true
  | _ => false

/-- Parameters with a type annotation around their pattern. -/
def isTypedParameter : Kind → Bool
  | requiredParameter | optionalParameter => true
  | _ => false

end Kind

/-- The role of a node in its parent. -/
inductive Field where
  | function
  | arguments
  | object
  | property
  | key
  | value
  | name
  | localName
  | source
  | declaration
  | left
  | pattern
  | parameter
  | parameters
  | kind
  | body
  deriving DecidableEq, Repr

namespace Field

/-- The name of each field in a syntax tree. -/
def names : List (String × Field) :=
  [("function", function), ("arguments", arguments), ("object", object), ("property", property),
    ("key", key), ("value", value), ("name", name), ("alias", localName), ("source", source),
    ("declaration", declaration), ("left", left), ("pattern", pattern),
    ("parameter", parameter), ("parameters", parameters), ("kind", kind), ("body", body)]

/-- The spelling of each field. -/
def spellings : List (Text × Field) :=
  names.map fun entry => (Text.ofString entry.1, entry.2)

/-- The field with a spelling, if it is one that matters. -/
def ofText? (name : Text) : Option Field :=
  (spellings.find? fun entry => entry.1 == name).map Prod.snd

end Field

end MessageKeys.Syntax
