import MessageKeys.Files.PathName

/-!
# Paths

A path is an anchor and the components after it; `.` components and repeated slashes are
gone, `..` components stay until the path is resolved.  Resolving is lexical here; a file
system also leads through its links.
-/

namespace MessageKeys

/-- Where a path starts: in the working directory, or at the root, which two slashes spell
too. -/
inductive Anchor where
  | relative
  | root
  | doubleRoot
  deriving DecidableEq, Repr

/-- A path. -/
structure Path where
  anchor : Anchor
  parts : List Text
  deriving DecidableEq, Repr

/-- A path from the root without `..`. -/
abbrev AbsolutePath := List Text

namespace Path

/-- Whether a component says something. -/
def isPart (component : Text) : Bool :=
  !component.isEmpty && decide (component ≠ PathName.here)

/-- Read a path. -/
def ofText (text : Text) : Path where
  anchor :=
    match PathName.leading text with
    | 0 => .relative
    | 1 => .root
    | _ => .doubleRoot
  parts := (Text.splitOn PathName.slash text).filter isPart

/-- The spelling of an anchor. -/
def anchorText : Anchor → Text
  | .relative => []
  | .root => "/"
  | .doubleRoot => "//"

/-- The spelling of a path. -/
def toText (path : Path) : Text :=
  let spelled := anchorText path.anchor ++ Text.join [PathName.slash] path.parts
  if spelled.isEmpty then PathName.here else spelled

/-- A path taken from a directory; an anchored one replaces it. -/
def join (directory path : Path) : Path :=
  match path.anchor with
  | .relative => ⟨directory.anchor, directory.parts ++ path.parts⟩
  | _ => path

/-- The path of a name in a directory. -/
def child (directory : Path) (name : Text) : Path :=
  { directory with parts := directory.parts ++ [name] }

/-- The last component. -/
def name (path : Path) : Text :=
  path.parts.getLast?.getD []

/-- The last component without its extension. -/
def stem (path : Path) : Text :=
  let suffix := (path.name.reverse.takeWhile (· ≠ CodePoint.ofChar '.')).reverse
  let size := path.name.length - suffix.length - 1
  if 0 < size && !suffix.isEmpty && suffix.length < path.name.length then path.name.take size
  else path.name

/-- Take one more component onto an absolute path; above the root is the root. -/
def descend (directory : AbsolutePath) (component : Text) : AbsolutePath :=
  if component = PathName.up then directory.dropLast else directory ++ [component]

/-- The absolute path that a path means in a working directory. -/
def resolve (workingDirectory : AbsolutePath) (path : Path) : AbsolutePath :=
  match path.anchor with
  | .relative => path.parts.foldl descend workingDirectory
  | _ => path.parts.foldl descend []

/-- The path of an absolute path. -/
def ofAbsolute (absolute : AbsolutePath) : Path :=
  ⟨.root, absolute⟩

end Path

/-- The spelling of an absolute path. -/
def AbsolutePath.toText (absolute : AbsolutePath) : Text :=
  (Path.ofAbsolute absolute).toText

end MessageKeys
