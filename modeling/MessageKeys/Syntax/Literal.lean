import MessageKeys.Syntax.Cursor

/-!
# Literals and names

The value of a quoted string, with each escape sequence decoded by itself, and the names
of properties.  Template strings have no value here: they count as dynamic even without
substitutions.
-/

namespace MessageKeys.Syntax

namespace Escape

/-- The code points of the escapes with one letter. -/
def simple? (letter : CodePoint) : Option CodePoint :=
  if letter = ('n' : Char) then some (CodePoint.ofNat 0x0a)
  else if letter = ('t' : Char) then some (CodePoint.ofNat 0x09)
  else if letter = ('r' : Char) then some (CodePoint.ofNat 0x0d)
  else if letter = ('b' : Char) then some (CodePoint.ofNat 0x08)
  else if letter = ('f' : Char) then some (CodePoint.ofNat 0x0c)
  else if letter = ('v' : Char) then some (CodePoint.ofNat 0x0b)
  else if letter = ('0' : Char) then some (CodePoint.ofNat 0)
  else none

/-- The code point that hexadecimal digits name. -/
def numbered? (digits : Text) : Option CodePoint :=
  match Text.hexNumber? digits with
  | some n => if h : n < 0x110000 then some ⟨n, h⟩ else none
  | none => none

/-- The text that an escape sequence stands for, given with its backslash.  A number that
names no code point leaves the sequence as it is, a backslash before a line feed or
carriage return stands for nothing, and any other escaped text stands for itself. -/
def decode (sequence : Text) : Text :=
  match sequence.drop 1 with
  | [] => []
  | head :: tail =>
      match if tail.isEmpty then simple? head else none with
      | some point => [point]
      | none =>
          if head = ('x' : Char) && tail.length == 2 then
            match numbered? tail with
            | some point => [point]
            | none => sequence
          else if head = ('u' : Char) then
            let braced := tail.head?.any fun c => c.val == 0x7b
            match numbered? (if braced then (tail.drop 1).dropLast else tail) with
            | some point => [point]
            | none => sequence
          else if head = ('\r' : Char) || head = ('\n' : Char) then []
          else head :: tail

end Escape

namespace Cursor

/-- The part of a string literal's value that one of its pieces contributes. -/
def pieceValue (piece : Cursor) : Text :=
  match piece.kind with
  | .escapeSequence => Escape.decode piece.text
  | _ => piece.text

/-- The value of a quoted string literal. -/
def stringValue? (c : Cursor) : Option Text :=
  match c.kind with
  | .string => some (c.namedChildren.flatMap pieceValue)
  | _ => none

/-- The name that a property key or an element of a pattern gives statically.  Computed
keys give none. -/
def propertyName? (c : Cursor) : Option Text :=
  if c.kind.isNameKey then some c.text else c.stringValue?

/-- The arguments of a call, comments left out.  A tagged template has none. -/
def argumentNodes (call : Cursor) : List Cursor :=
  match call.child? .arguments with
  | some list =>
      if list.kind = .arguments then
        list.namedChildren.filter fun argument => decide (argument.kind ≠ .comment)
      else []
  | none => []

end Cursor

/-- The categories of syntax that key resolution tells apart. -/
inductive Category where
  | call
  | memberAccess
  | objectLiteral
  | propertyAssignment
  | argumentList
  | bindingPattern
  | stringLiteral
  | functionLike
  | variableDeclarator
  | importSpecifier
  | identifier
  | other
  deriving DecidableEq, Repr

/-- The category of a kind of node. -/
def Kind.category : Kind → Category
  | callExpression => .call
  | memberExpression => .memberAccess
  | object => .objectLiteral
  | pair => .propertyAssignment
  | arguments => .argumentList
  | objectPattern => .bindingPattern
  | string => .stringLiteral
  | variableDeclarator => .variableDeclarator
  | importSpecifier => .importSpecifier
  | identifier | shorthandPropertyIdentifier => .identifier
  | kind => if kind.isFunction then .functionLike else .other

/-- The name of a category. -/
def Category.name : Category → Text
  | call => "call"
  | memberAccess => "member_access"
  | objectLiteral => "object_literal"
  | propertyAssignment => "property_assignment"
  | argumentList => "argument_list"
  | bindingPattern => "binding_pattern"
  | stringLiteral => "string_literal"
  | functionLike => "function_like"
  | variableDeclarator => "variable_declarator"
  | importSpecifier => "import_specifier"
  | identifier => "identifier"
  | other => "other"

end MessageKeys.Syntax
