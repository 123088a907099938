import MessageKeys.Text.Basic

/-!
# Message keys

A key is a dot-separated path: the names on the way into a document, or the namespace of a
translator followed by the literal it was called with.
-/

namespace MessageKeys.Key

/-- The mark between the segments of a key. -/
def separator : CodePoint := CodePoint.ofChar '.'

/-- The spelling of the namespace that adds nothing to a key. -/
def defaultNamespace : Text := "default"

/-- The segments of a key. -/
def segments (key : Text) : List Text :=
  Text.splitOn separator key

/-- The key of a member called `name` below `path`.  Nothing stands in front of a name
below the empty path. -/
def child (path name : Text) : Text :=
  if path.isEmpty then name else path ++ separator :: name

/-- The key for a literal in a namespace. -/
def qualify (space : Option Text) (literal : Text) : Text :=
  match space with
  | none => literal
  | some space =>
      if space.isEmpty || space = defaultNamespace then literal
      else space ++ separator :: literal

end MessageKeys.Key
