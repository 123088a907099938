import MessageKeys.Project.Basic

/-!
# Workspaces

A workspace is a project while its files change.  They are added and replaced, looked up by
path, and asked for their scope indexes.  An index is built when it is first asked for and
then kept under the normal path of its file, until a file is added there or another file of
that path, an earlier one perhaps, is asked for its index.
-/

namespace MessageKeys

open Syntax

/-- A project and the scope indexes at hand, by normal path. -/
structure Workspace where
  project : Project
  indexes : List (Text × ScopeIndex) := []

namespace Workspace

/-- The workspace without files. -/
def empty (root : Option Text) : Workspace :=
  { project := .empty root }

/-- The files in order. -/
def units (workspace : Workspace) : List SourceUnit :=
  workspace.project.units

/-- The file at a path. -/
def get? (workspace : Workspace) (path : Text) : Option SourceUnit :=
  workspace.project.get? path

/-- Add a file, in the place of one with the same normal path, and drop the index for that
path. -/
def add (workspace : Workspace) (unit : SourceUnit) : Workspace where
  project := workspace.project.add unit
  indexes := Assoc.erase (PathName.normalize unit.path) workspace.indexes

/-- The scope index of a file: the one at hand, if it is of this very file, or else a new one
that is kept in its place. -/
def index (workspace : Workspace) (unit : SourceUnit) : ScopeIndex × Workspace :=
  let path := PathName.normalize unit.path
  let build : ScopeIndex × Workspace :=
    let built := ScopeIndex.ofUnit unit
    (built, { workspace with indexes := Assoc.insert path built workspace.indexes })
  match Assoc.get? path workspace.indexes with
  | some found => if found.unit = unit then (found, workspace) else build
  | none => build

end Workspace

end MessageKeys
