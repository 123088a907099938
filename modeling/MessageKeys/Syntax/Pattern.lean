import MessageKeys.Syntax.Literal

/-!
# Patterns and parameters

A declaration binds the identifiers in its pattern, in source order.  Default values and
property keys inside a pattern bind nothing.
-/

namespace MessageKeys.Syntax.Cursor

mutual

/-- The identifiers that a pattern binds. -/
def patternNode (unit : SourceUnit) (above : List Node) : Node → List Cursor
  | .mk label children =>
      let here : Node := .mk label children
      match label.kind with
      | .identifier | .shorthandPropertyIdentifierPattern => [⟨unit, here, above⟩]
      | .pairPattern => patternField unit (here :: above) .value children
      | .objectAssignmentPattern | .assignmentPattern =>
          patternField unit (here :: above) .left children
      | .requiredParameter | .optionalParameter =>
          patternField unit (here :: above) .pattern children
      | .objectPattern | .arrayPattern | .restPattern =>
          patternNodes unit (here :: above) children
      | _ => []

/-- The identifiers bound by the first of some trees with a role. -/
def patternField (unit : SourceUnit) (above : List Node) (field : Field) :
    List Node → List Cursor
  | [] => []
  | first :: rest =>
      if first.label.field = some field then patternNode unit above first
      else patternField unit above field rest

/-- The identifiers bound by the named ones of some trees. -/
def patternNodes (unit : SourceUnit) (above : List Node) : List Node → List Cursor
  | [] => []
  | first :: rest =>
      (if first.label.named then patternNode unit above first else [])
        ++ patternNodes unit above rest

end

/-- The identifiers that a pattern binds, in source order. -/
def patternBindings (c : Cursor) : List Cursor :=
  patternNode c.unit c.above c.node

/-- The pattern of a parameter, without its type annotation and default value. -/
def parameterPattern? (parameter : Cursor) : Option Cursor :=
  let pattern :=
    if parameter.kind.isTypedParameter then parameter.child? .pattern else some parameter
  match pattern with
  | some found => if found.kind = .assignmentPattern then found.child? .left else some found
  | none => none

/-- Whether a parameter declares the type of `this` and so takes no argument. -/
def isThisParameter (parameter : Cursor) : Bool :=
  match parameter.parameterPattern? with
  | some pattern => decide (pattern.kind = .thisExpression)
  | none => false

/-- The parameters of a function that take arguments, in order. -/
def functionParameters (function : Cursor) : List Cursor :=
  match function.child? .parameter with
  | some single => [single]
  | none =>
      match function.child? .parameters with
      | some list =>
          list.namedChildren.filter fun parameter =>
            decide (parameter.kind ≠ .comment) && !parameter.isThisParameter
      | none => []

/-- The elements of an object pattern that read a property. -/
def destructured (pattern : Cursor) (property : Text) : List Cursor :=
  pattern.namedChildren.filterMap fun element =>
    match element.kind with
    | .shorthandPropertyIdentifierPattern =>
        if element.text = property then some element else none
    | .objectAssignmentPattern =>
        match element.child? .left with
        | some left => if left.text = property then some left else none
        | none => none
    | .pairPattern =>
        if (element.child? .key).bind propertyName? = some property then
          match element.child? .value with
          | some value =>
              let target :=
                if value.kind = .assignmentPattern then value.child? .left else some value
              target.filter fun found => decide (found.kind = .identifier)
          | none => none
        else none
    | _ => none

end MessageKeys.Syntax.Cursor
