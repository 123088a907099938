import MessageKeys.Files.Wildcard
import MessageKeys.Project.Basic
import MessageKeys.Report.Notice

/-!
# Source files on disk

Source files are found by patterns and listed in the order of their paths, compared
component by component.  A file that cannot be read is passed over with a notice; a path
that cannot be used ends the search.
-/

namespace MessageKeys

open Syntax
open Wildcard (SearchError)

namespace FileSystem

/-- The files that a pattern matches from a directory. -/
def matching (fs : FileSystem) (directory : Path) (pattern : Text) :
    Except SearchError (List AbsolutePath) := do
  let found ← Wildcard.expand fs directory pattern
  let places ← found.mapM fun path =>
    (fs.resolve? path).mapError fun fault => .file (.path fault)
  places.filterM fun place =>
    (fs.isFile (Path.ofAbsolute place)).mapError fun e => .file (.os e)

/-- The files that patterns match from a directory, each once, in order. -/
def discover (fs : FileSystem) (patterns : List Text) (directory : Path) :
    Except SearchError (List AbsolutePath) :=
  (patterns.mapM (fs.matching directory)).map fun found =>
    found.flatten.eraseDups.mergeSort fun a b => !decide (b < a)

/-- The source file at a path, known by its absolute path. -/
def readSource (fs : FileSystem) (path : Path) : Except FileError SourceUnit :=
  match fs.resolve? path with
  | .error fault => .error (.path fault)
  | .ok place =>
      match fs.readFile (Path.ofAbsolute place) with
      | .error e => .error e
      | .ok file => .ok ⟨AbsolutePath.toText place, file.content.toArray, file.tree⟩

/-- The notice for a source file that cannot be read. -/
def unreadable (fs : FileSystem) (path : Path) (e : OsError) : Notice :=
  .unreadableSource path.toText
    (e.message (AbsolutePath.toText (fs.resolve path)))

end FileSystem

/-- The project with the source files at some paths. -/
def Project.ofFiles (fs : FileSystem) (root : Option Text) (paths : List Path) :
    Except PathFault (Project × List Notice) :=
  paths.foldlM
    (fun (project, notices) path =>
      match fs.readSource path with
      | .ok unit => .ok (project.add unit, notices)
      | .error (.os e) => .ok (project, notices ++ [fs.unreadable path e])
      | .error (.path fault) => .error fault)
    (Project.empty root, [])

end MessageKeys
