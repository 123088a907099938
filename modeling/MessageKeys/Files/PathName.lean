import MessageKeys.Text.Basic

/-!
# Path names

Operations on the spelling of a path alone.  The normal form of a path has no empty, `.`
or removable `..` component; two leading slashes, but not more, stay two.
-/

namespace MessageKeys.PathName

/-- The mark between the components of a path. -/
def slash : CodePoint := CodePoint.ofChar '/'

/-- The component for the directory itself. -/
def here : Text := "."

/-- The component for the directory above. -/
def up : Text := ".."

/-- The number of leading slashes that a path keeps: none, one or two. -/
def leading (path : Text) : Nat :=
  let count := (path.takeWhile (· = slash)).length
  if count = 2 then 2 else min count 1

/-- Take one more component onto a path, given from its last component back. -/
def push (absolute : Bool) (stack : List Text) (component : Text) : List Text :=
  if component.isEmpty || component = here then stack
  else if component ≠ up then component :: stack
  else match stack with
    | [] => if absolute then [] else [up]
    | top :: rest => if top = up then up :: stack else rest

/-- The components of the normal form of a path. -/
def components (path : Text) : List Text :=
  ((Text.splitOn slash path).foldl (push (decide (0 < leading path))) []).reverse

/-- The normal form of a path. -/
def normalize (path : Text) : Text :=
  let spelled := List.replicate (leading path) slash ++ Text.join [slash] (components path)
  if spelled.isEmpty then here else spelled

/-- A path taken from a directory; an absolute one replaces it. -/
def join (directory path : Text) : Text :=
  if [slash].isPrefixOf path then path
  else if directory.isEmpty || directory.getLast? = some slash then directory ++ path
  else directory ++ slash :: path

/-- The part of a path after its last slash. -/
def base (path : Text) : Text :=
  (path.reverse.takeWhile (· ≠ slash)).reverse

/-- The part of a path before its last component, without trailing slashes unless there is
nothing else. -/
def directory (path : Text) : Text :=
  let head := path.take (path.length - (base path).length)
  if head.all (· = slash) then head else (head.reverse.dropWhile (· = slash)).reverse

/-- Cut a path in front of its extension: the last dot of the last component, unless only
dots stand before it there. -/
def splitExtension (path : Text) : Text × Text :=
  let name := base path
  let suffix := (name.reverse.takeWhile (· ≠ CodePoint.ofChar '.')).reverse
  let stem := name.take (name.length - suffix.length - 1)
  if suffix.length < name.length && stem.any (· ≠ CodePoint.ofChar '.') then
    let size := path.length - suffix.length - 1
    (path.take size, path.drop size)
  else (path, [])

end MessageKeys.PathName
