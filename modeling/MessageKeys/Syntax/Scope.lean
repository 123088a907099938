import MessageKeys.Syntax.Module

/-!
# Scopes

The index of a file lists its declarations in the order in which a walk over the tree
meets them.  The first declaration of a name in a scope is the one that the name means
there; an identifier means the declaration of its name in the nearest scope around it that
has one.
-/

namespace MessageKeys.Syntax

/-- A name declared in a scope. -/
structure Declaration where
  scope : Cursor
  binding : Cursor
  name : Text

namespace Declaration

/-- The declaration of a binding in a scope. -/
def of (scope binding : Cursor) : Declaration :=
  ⟨scope, binding, binding.text⟩

/-- The declarations of bindings in a scope; none without a scope. -/
def all (scope : Option Cursor) (bindings : List Cursor) : List Declaration :=
  match scope with
  | some owner => bindings.map (of owner)
  | none => []

end Declaration

namespace Cursor

/-- The nearest scope around a node. -/
def enclosingScope? (c : Cursor) : Option Cursor :=
  c.ancestor? Kind.isScope

/-- The scopes around a node, nearest first. -/
def scopes (c : Cursor) : List Cursor :=
  c.ancestors Kind.isScope

/-- The function or file that owns the `var` declarations at a node. -/
def hoistScope? (c : Cursor) : Option Cursor :=
  c.ancestor? Kind.isHoistTarget

/-- The bindings of the pattern with a role. -/
def bindingsOf (c : Cursor) (field : Field) : List Cursor :=
  match c.child? field with
  | some pattern => pattern.patternBindings
  | none => []

/-- The bindings of a function's parameters. -/
def parameterBindings (function : Cursor) : List Cursor :=
  function.functionParameters.flatMap fun parameter =>
    match parameter.parameterPattern? with
    | some pattern => pattern.patternBindings
    | none => []

/-- The names that a node declares, each with its scope. -/
def declarations (c : Cursor) : List Declaration :=
  match c.kind with
  | .variableDeclarator =>
      let hoisted := c.parent?.any fun parent => decide (parent.kind = .variableDeclaration)
      Declaration.all (if hoisted then c.hoistScope? else c.enclosingScope?) (c.bindingsOf .name)
  | .functionDeclaration | .generatorFunctionDeclaration =>
      Declaration.all c.enclosingScope? (c.child? .name).toList
        ++ Declaration.all (some c) c.parameterBindings
  | .functionExpression | .function | .generatorFunction =>
      Declaration.all (some c) (c.child? .name).toList
        ++ Declaration.all (some c) c.parameterBindings
  | .arrowFunction | .methodDefinition => Declaration.all (some c) c.parameterBindings
  | .classDeclaration => Declaration.all c.enclosingScope? (c.child? .name).toList
  | .catchClause => Declaration.all (some c) (c.bindingsOf .parameter)
  | .forInStatement =>
      if (c.child? .kind).isSome then Declaration.all (some c) (c.bindingsOf .left) else []
  | .importStatement =>
      Declaration.all (some c.unit.top) (c.statementBindings.map ImportBinding.node)
  | _ => []

/-- Whether a node names something of another file rather than referring to a binding. -/
def namesModuleMember (c : Cursor) : Bool :=
  match c.parent? with
  | some parent =>
      decide (parent.kind = .importSpecifier) || decide (parent.kind = .exportSpecifier)
  | none => false

end Cursor

/-- The declarations of a file. -/
structure ScopeIndex where
  unit : SourceUnit
  declarations : List Declaration

namespace ScopeIndex

/-- The index of a file. -/
def ofUnit (unit : SourceUnit) : ScopeIndex :=
  ⟨unit, unit.cursors.flatMap Cursor.declarations⟩

/-- Whether a node is a declared name rather than a reference. -/
def isBinding (index : ScopeIndex) (c : Cursor) : Bool :=
  index.declarations.any fun declaration => decide (declaration.binding.key = c.key)

/-- The first declaration of a name in a scope. -/
def lookup? (index : ScopeIndex) (scope : Cursor) (name : Text) : Option Cursor :=
  (index.declarations.find? fun declaration =>
    decide (declaration.scope.key = scope.key) && decide (declaration.name = name)).map
      Declaration.binding

/-- The scope in which a binding was declared last. -/
def owner? (index : ScopeIndex) (binding : Cursor) : Option Cursor :=
  (index.declarations.reverse.find? fun declaration =>
    decide (declaration.binding.key = binding.key)).map Declaration.scope

/-- The declaration of a name at the top of the file. -/
def programBinding? (index : ScopeIndex) (name : Text) : Option Cursor :=
  index.lookup? index.unit.top name

/-- The binding that an identifier means.  A declared name means itself; a name that no
scope around it declares means nothing in this file. -/
def declarationOf? (index : ScopeIndex) (c : Cursor) : Option Cursor :=
  if index.isBinding c then some c
  else c.scopes.findSome? fun scope => index.lookup? scope c.text

/-- Whether a node is a reference by its kind and has the given text. -/
def mentions (name : Text) (c : Cursor) : Bool :=
  c.kind.isReference && decide (c.text = name)

/-- Whether a node that mentions a binding's name refers to the binding. -/
def refersTo (index : ScopeIndex) (binding : Cursor) (c : Cursor) : Bool :=
  !index.isBinding c && !c.namesModuleMember
    && match index.declarationOf? c with
      | some target => decide (target.key = binding.key)
      | none => false

/-- The references to a binding inside its scope, in source order. -/
def references (index : ScopeIndex) (binding : Cursor) : List Cursor :=
  match index.owner? binding with
  | some owner =>
      (owner.walkUntil (mentions binding.text)).filter fun c =>
        mentions binding.text c && index.refersTo binding c
  | none => []

end ScopeIndex

end MessageKeys.Syntax
