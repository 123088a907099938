import MessageKeys.Project.Basic

/-!
# Callees

The function that a call invokes, as far as names tell: a function of the same file, a
member of an object literal or class that a name stands for, or a function that another
file exports.  An imported name is followed into one other file.
-/

namespace MessageKeys

open Syntax

namespace Callee

/-- What the syntax around a binding says about the function it names. -/
inductive Bound where
  | function (f : Cursor)
  /-- The binding has a value that is not a function. -/
  | nothing
  /-- The binding gets its value from elsewhere, an import perhaps. -/
  | elsewhere

/-- The function that a binding names in its own file. -/
def bound (binding : Cursor) : Bound :=
  match binding.parent? with
  | none => .nothing
  | some parent =>
      if (parent.kind.isFunctionDeclaration || parent.kind.isNamedFunctionExpression)
          && parent.hasChild .name binding then .function parent
      else if parent.kind = .variableDeclarator && parent.hasChild .name binding then
        match parent.child? .value with
        | some value => if value.kind.isFunction then .function value else .nothing
        | none => .nothing
      else .elsewhere

/-- The first function called `name` among the members of an object literal or class
body. -/
def memberFunction? (container : Cursor) (name : Text) : Option Cursor :=
  container.namedChildren.findSome? fun member =>
    match member.kind with
    | .methodDefinition =>
        if (member.child? .name).bind Cursor.propertyName? = some name then some member else none
    | .pair | .publicFieldDefinition | .fieldDefinition =>
        let key := (member.child? .key).or (member.child? .name)
        match member.child? .value with
        | some value =>
            if key.bind Cursor.propertyName? = some name && value.kind.isFunction then some value
            else none
        | none => none
    | _ => none

/-- The object literal or class body that a binding names. -/
def container? (declaration : Cursor) : Option Cursor :=
  match declaration.parent? with
  | none => none
  | some parent =>
      match parent.kind with
      | .classDeclaration | .abstractClassDeclaration => parent.child? .body
      | .variableDeclarator =>
          match parent.child? .value with
          | some value =>
              match value.kind with
              | .object => some value
              | .classExpression => value.child? .body
              | _ => none
          | none => none
      | _ => none

/-- The file and the exported name that an import binding stands for. -/
def imported? (project : Project) (binding : Cursor) : Option (SourceUnit × Text) :=
  match binding.unit.imports.find? fun found => decide (found.node.key = binding.key) with
  | some found =>
      (project.resolveModule? binding.unit found.module).map fun target =>
        (target, found.importedName)
  | none => none

/-- The function that a file exports under a name.  Only names of the file itself are
followed. -/
def exported? (project : Project) (target : SourceUnit) (name : Text) : Option Cursor :=
  match Assoc.get? name target.exports with
  | none => none
  | some provider =>
      if provider.kind.isFunction then some provider
      else if provider.kind.isReference then
        match (project.index target).declarationOf? provider with
        | some declaration =>
            match bound declaration with
            | .function f => some f
            | _ => none
        | none => none
      else none

/-- The function that a name stands for where it is called. -/
def named? (project : Project) (name : Cursor) : Option Cursor :=
  match (project.index name.unit).declarationOf? name with
  | none => none
  | some binding =>
      match bound binding with
      | .function f => some f
      | .nothing => none
      | .elsewhere =>
          match imported? project binding with
          | some (target, exportedName) => exported? project target exportedName
          | none => none

/-- The function that a member access stands for: a member of the class around it for
`this`, of the object literal or class that a name stands for, or of a file imported as a
whole. -/
def member? (project : Project) (access : Cursor) : Option Cursor :=
  match access.child? .object, (access.child? .property).bind Cursor.propertyName? with
  | some receiver, some name =>
      if receiver.kind = .thisExpression then
        match access.ancestor? fun kind => kind == .classBody with
        | some body => memberFunction? body name
        | none => none
      else if receiver.kind.isReference then
        match (project.index receiver.unit).declarationOf? receiver with
        | none => none
        | some declaration =>
            match container? declaration with
            | some container => memberFunction? container name
            | none =>
                match imported? project declaration with
                | some (target, importedName) =>
                    if importedName = wholeModule then exported? project target name else none
                | none => none
      else none
  | _, _ => none

end Callee

/-- The function that a call invokes. -/
def Project.callee? (project : Project) (call : Cursor) : Option Cursor :=
  match call.child? .function with
  | none => none
  | some callee =>
      if callee.kind.isReference then Callee.named? project callee
      else if callee.kind = .memberExpression then Callee.member? project callee
      else none

end MessageKeys
