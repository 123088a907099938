import MessageKeys.Json.Basic
import MessageKeys.Messages.Key
import MessageKeys.Messages.KeySet

/-!
# Message documents

A message document is a nested object.  Its keys are the dot-joined paths of its leaves:
everything that is not an object is a leaf, and an empty object has none.  Erasing a key
takes out what stands at its path and every container that this leaves empty.
-/

namespace MessageKeys

/-- A message document: the members of its outermost object. -/
abbrev Document := List (Text × Json)

namespace Document

mutual

/-- The keys of the leaves of a value that stands at `path`. -/
def leafKeys (path : Text) : Json → List Text
  | .obj members => memberKeys path members
  | _ => [path]

/-- The keys of the leaves of the members below `path`. -/
def memberKeys (path : Text) : List (Text × Json) → List Text
  | [] => []
  | (name, value) :: members => leafKeys (Key.child path name) value ++ memberKeys path members

end

/-- The keys that a document defines. -/
def keys (document : Document) : KeySet :=
  KeySet.ofList (memberKeys [] document)

/-- Whether something stands at a path. -/
def hasPath : List Text → Document → Bool
  | [], _ => false
  | [last], document => document.any fun member => decide (member.1 = last)
  | segment :: next :: rest, document =>
      document.any fun member =>
        decide (member.1 = segment) &&
          match member.2 with
          | .obj members => hasPath (next :: rest) members
          | _ => false

/-- Take out what stands at a path, and each container on the way that becomes empty by
it. -/
def erasePath : List Text → Document → Document
  | [], document => document
  | [last], document => document.filter fun member => decide (member.1 ≠ last)
  | segment :: next :: rest, document =>
      document.filterMap fun member =>
        if member.1 = segment then
          match member.2 with
          | .obj members =>
              let left := erasePath (next :: rest) members
              if left.isEmpty && hasPath (next :: rest) members then none
              else some (member.1, .obj left)
          | _ => some member
        else some member

/-- Whether a document has something to erase at a key. -/
def hasKey (document : Document) (key : Text) : Bool :=
  hasPath (Key.segments key) document

/-- A document without what stands at a key. -/
def eraseKey (document : Document) (key : Text) : Document :=
  erasePath (Key.segments key) document

/-- Whether erasing a key takes something out and leaves nothing at all. -/
def emptiedBy (document : Document) (key : Text) : Bool :=
  document.hasKey key && (document.eraseKey key).isEmpty

/-- Erase keys one after the other, and count those at which something stood. -/
def eraseKeys (document : Document) (keys : List Text) : Document × Nat :=
  keys.foldl
    (fun (document, removed) key =>
      (document.eraseKey key, if document.hasKey key then removed + 1 else removed))
    (document, 0)

end Document

end MessageKeys
