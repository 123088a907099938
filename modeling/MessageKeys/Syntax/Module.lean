import MessageKeys.Assoc
import MessageKeys.Syntax.Pattern

/-!
# Imports and exports

An import statement binds local names to exports of another file: a default import takes
the export `default`, a namespace import all of them, written `*`.  Exports map each
exported name to the node that provides it.  Exports from a further file are left out, so
that an imported name is followed into one file only.
-/

namespace MessageKeys.Syntax

/-- A name bound by an import statement. -/
structure ImportBinding where
  localName : Text
  importedName : Text
  module : Text
  node : Cursor

/-- The name under which a default import and a default export meet. -/
def defaultExport : Text := "default"

/-- The name that stands for a whole file in a namespace import. -/
def wholeModule : Text := "*"

namespace Cursor

/-- The names bound by one named import. -/
def specifierBinding? (module : Text) (specifier : Cursor) : Option ImportBinding :=
  let name := specifier.child? .name
  match (specifier.child? .localName).or name, name.bind propertyName? with
  | some bound, some imported => some ⟨bound.text, imported, module, bound⟩
  | _, _ => none

/-- The names bound by one part of an import clause. -/
def partBindings (module : Text) (part : Cursor) : List ImportBinding :=
  match part.kind with
  | .identifier => [⟨part.text, defaultExport, module, part⟩]
  | .namespaceImport =>
      (part.namedChildren.filter fun name => decide (name.kind = .identifier)).map fun name =>
        ⟨name.text, wholeModule, module, name⟩
  | .namedImports =>
      (part.namedChildren.filter fun specifier => decide (specifier.kind = .importSpecifier))
        |>.filterMap (specifierBinding? module)
  | _ => []

/-- The names bound by an import statement.  One without a literal file to import from
binds nothing. -/
def statementBindings (statement : Cursor) : List ImportBinding :=
  match (statement.child? .source).bind stringValue? with
  | some module =>
      (statement.namedChildren.filter fun clause => decide (clause.kind = .importClause))
        |>.flatMap fun clause => clause.namedChildren.flatMap (partBindings module)
  | none => []

/-- The names that an exported declaration declares. -/
def declaredNames (declaration : Cursor) : List Cursor :=
  match declaration.kind with
  | .functionDeclaration | .generatorFunctionDeclaration | .classDeclaration =>
      (declaration.child? .name).toList
  | .lexicalDeclaration | .variableDeclaration =>
      (declaration.namedChildren.filter fun part => decide (part.kind = .variableDeclarator))
        |>.flatMap fun declarator =>
          match declarator.child? .name with
          | some pattern => pattern.patternBindings
          | none => []
  | _ => []

/-- One name of an export clause with the local name that provides it. -/
def specifierExport? (specifier : Cursor) : Option (Text × Cursor) :=
  let name := specifier.child? .name
  match name, ((specifier.child? .localName).or name).bind propertyName? with
  | some provider, some exported => some (exported, provider)
  | _, _ => none

/-- The names that an export statement exports, with their providers. -/
def statementExports (statement : Cursor) : List (Text × Cursor) :=
  if (statement.child? .source).isSome then []
  else if statement.children.any fun child => decide (child.kind = .defaultKeyword) then
    match (statement.child? .declaration).or (statement.child? .value) with
    | some target => [(defaultExport, target)]
    | none => []
  else match statement.child? .declaration with
    | some declaration => declaration.declaredNames.map fun name => (name.text, name)
    | none =>
        (statement.namedChildren.filter fun clause => decide (clause.kind = .exportClause))
          |>.flatMap fun clause =>
            (clause.namedChildren.filter fun part => decide (part.kind = .exportSpecifier))
              |>.filterMap specifierExport?

end Cursor

namespace SourceUnit

/-- The names bound by the import statements at the top of a file. -/
def imports (unit : SourceUnit) : List ImportBinding :=
  (unit.top.namedChildren.filter fun statement => decide (statement.kind = .importStatement))
    |>.flatMap Cursor.statementBindings

/-- The names that a file exports, each with its first provider. -/
def exports (unit : SourceUnit) : List (Text × Cursor) :=
  (unit.top.namedChildren.filter fun statement => decide (statement.kind = .exportStatement))
    |>.flatMap Cursor.statementExports
    |>.foldl (fun table entry => Assoc.insertNew entry.1 entry.2 table) []

end SourceUnit

end MessageKeys.Syntax
