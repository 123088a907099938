import MessageKeys.Syntax.Literal

/-!
# Uses of a reference

What a reference to a translator is used for shows in the syntax directly around it: it is
called, possibly through a method, or it is handed on as an argument, either itself or as
a property of an object literal.  Any other use is ignored.
-/

namespace MessageKeys

open Syntax

/-- The use of a reference. -/
inductive ReferenceUse where
  /-- The reference, or a method of it, is what `call` calls. -/
  | direct (call : Cursor)
  /-- The reference is an argument of `call`. -/
  | positional (call : Cursor) (index : Nat)
  /-- The reference is a property of an object literal that is an argument of `call`. -/
  | property (call : Cursor) (index : Nat) (name : Text)
  | ignored

namespace ReferenceUse

/-- The call that a node is an argument of, with the argument's position. -/
def argumentOf? (argument : Cursor) : Option (Cursor × Nat) :=
  match argument.parent? with
  | some list =>
      if list.kind = .arguments then
        match list.parent? with
        | some call =>
            if call.kind = .callExpression then
              (call.argumentNodes.findIdx? fun candidate => candidate.sameNode argument).map
                fun index => (call, index)
            else none
        | none => none
      else none
  | none => none

/-- The use of an object literal that carries a reference under a name. -/
def carriedBy (literal : Cursor) (name : Text) : ReferenceUse :=
  match argumentOf? literal with
  | some (call, index) => .property call index name
  | none => .ignored

/-- The use of a reference. -/
def classify (reference : Cursor) : ReferenceUse :=
  match reference.parent? with
  | none => .ignored
  | some parent =>
      match parent.kind with
      | .callExpression => if parent.hasChild .function reference then .direct parent else .ignored
      | .memberExpression =>
          if parent.hasChild .object reference then
            match parent.parent? with
            | some call =>
                if call.kind = .callExpression && call.hasChild .function parent then .direct call
                else .ignored
            | none => .ignored
          else .ignored
      | .arguments =>
          match argumentOf? reference with
          | some (call, index) => .positional call index
          | none => .ignored
      | .object =>
          if reference.kind = .shorthandPropertyIdentifier then carriedBy parent reference.text
          else .ignored
      | .pair =>
          if parent.hasChild .value reference then
            match (parent.child? .key).bind Cursor.propertyName?, parent.parent? with
            | some name, some literal =>
                if literal.kind = .object then carriedBy literal name else .ignored
            | _, _ => .ignored
          else .ignored
      | _ => .ignored

/-- The call through which a reference is used. -/
def call? : ReferenceUse → Option Cursor
  | direct call | positional call _ | property call _ _ => some call
  | ignored => none

end ReferenceUse

end MessageKeys
