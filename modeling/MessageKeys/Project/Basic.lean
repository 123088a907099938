import MessageKeys.Files.PathName
import MessageKeys.Syntax.Scope

/-!
# Projects

A project holds source files by the normal form of their paths, in the order in which the
paths were first added, each with its scope index.  An import is resolved among the files
of the project and nowhere else.
-/

namespace MessageKeys

open Syntax

/-- A source file with its scope index. -/
structure Module where
  unit : SourceUnit
  index : ScopeIndex

/-- The source files under analysis. -/
structure Project where
  root : Option Text
  modules : List (Text × Module)

namespace Project

/-- The project without files; imports of bare names start at `root`. -/
def empty (root : Option Text) : Project :=
  ⟨root.map PathName.normalize, []⟩

/-- Add a file, in the place of one with the same normal path. -/
def add (project : Project) (unit : SourceUnit) : Project :=
  { project with
    modules := Assoc.insert (PathName.normalize unit.path) ⟨unit, ScopeIndex.ofUnit unit⟩
      project.modules }

/-- The project with some files, added in order. -/
def ofUnits (root : Option Text) (units : List SourceUnit) : Project :=
  units.foldl add (empty root)

/-- The files in order. -/
def units (project : Project) : List SourceUnit :=
  project.modules.map fun entry => entry.2.unit

/-- The file stored under a normal path. -/
def stored? (project : Project) (path : Text) : Option SourceUnit :=
  (Assoc.get? path project.modules).map Module.unit

/-- The file at a path. -/
def get? (project : Project) (path : Text) : Option SourceUnit :=
  project.stored? (PathName.normalize path)

/-- The scope index of a file.  A file that is no longer in the project is indexed
afresh. -/
def index (project : Project) (unit : SourceUnit) : ScopeIndex :=
  match Assoc.get? (PathName.normalize unit.path) project.modules with
  | some module => if module.unit = unit then module.index else ScopeIndex.ofUnit unit
  | none => ScopeIndex.ofUnit unit

/-- The extensions that an import may leave out, in the order in which they are tried. -/
def extensions : List Text :=
  [".ts", ".tsx", ".js", ".jsx", ".mts", ".mjs", ".cts", ".cjs"]

/-- The paths that an import of `target` may mean, in order: the path itself, with a known
extension exchanged for each known one, with each of them added, and as a directory with
an index file. -/
def candidates (target : Text) : List Text :=
  let (stem, extension) := PathName.splitExtension target
  [target]
    ++ (if extensions.contains extension then extensions.map (stem ++ ·) else [])
    ++ extensions.map (target ++ ·)
    ++ extensions.map fun extension =>
        PathName.join target (Text.ofString "index" ++ extension)

/-- The path that an import names before any extension is tried.  A relative import starts
at the importing file, any other at the root. -/
def importTarget? (project : Project) (unit : SourceUnit) (specifier : Text) : Option Text :=
  if (Text.ofString ".").isPrefixOf specifier then
    some (PathName.normalize (PathName.join (PathName.directory unit.path) specifier))
  else project.root.map fun root => PathName.normalize (PathName.join root specifier)

/-- The file that an import means. -/
def resolveModule? (project : Project) (unit : SourceUnit) (specifier : Text) :
    Option SourceUnit :=
  match project.importTarget? unit specifier with
  | some target => (candidates target).findSome? project.stored?
  | none => none

end Project

end MessageKeys
