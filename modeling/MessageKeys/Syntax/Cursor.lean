import MessageKeys.Syntax.Node
import MessageKeys.Syntax.Span

/-!
# Places in a syntax tree

A cursor is a node together with the source file it belongs to and its ancestors, nearest
first.  Everything that is asked of the surroundings of a node (its parent, the scope
around it, the call it is an argument of) is a function of its cursor.

Walks visit named nodes only, in preorder.  A node is identified by the path of its file,
its range and its kind.
-/

namespace MessageKeys.Syntax

/-- A source file with the syntax tree of its content. -/
structure SourceUnit where
  path : Text
  source : Array UInt8
  root : Node
  deriving DecidableEq, Repr

/-- What identifies a node among all nodes of all files. -/
structure NodeKey where
  start : Nat
  stop : Nat
  kind : Kind
  path : Text
  deriving DecidableEq, Repr

/-- A node in its surroundings. -/
structure Cursor where
  unit : SourceUnit
  node : Node
  above : List Node
  deriving DecidableEq, Repr

namespace SourceUnit

/-- The top of a file's tree. -/
def top (unit : SourceUnit) : Cursor :=
  ⟨unit, unit.root, []⟩

/-- Whether the parser had to recover from an error. -/
def hasErrors (unit : SourceUnit) : Bool :=
  unit.root.hasErrors

end SourceUnit

namespace Cursor

/-- The label of the node. -/
def label (c : Cursor) : Label :=
  c.node.label

/-- The kind of the node. -/
def kind (c : Cursor) : Kind :=
  c.label.kind

/-- The identity of the node. -/
def key (c : Cursor) : NodeKey :=
  ⟨c.label.start, c.label.stop, c.label.kind, c.unit.path⟩

/-- Whether two cursors of one file are at the same node. -/
def sameNode (c d : Cursor) : Bool :=
  decide (c.label.start = d.label.start) && decide (c.label.stop = d.label.stop)
    && decide (c.label.kind = d.label.kind)

/-- The node above. -/
def parent? (c : Cursor) : Option Cursor :=
  match c.above with
  | [] => none
  | node :: above => some ⟨c.unit, node, above⟩

/-- The place of a tree directly below. -/
def below (c : Cursor) (node : Node) : Cursor :=
  ⟨c.unit, node, c.node :: c.above⟩

/-- The nodes directly below. -/
def children (c : Cursor) : List Cursor :=
  c.node.children.map c.below

/-- The named nodes directly below. -/
def namedChildren (c : Cursor) : List Cursor :=
  c.children.filter fun child => child.label.named

/-- The first node below with a role. -/
def child? (c : Cursor) (field : Field) : Option Cursor :=
  c.children.find? fun child => decide (child.label.field = some field)

/-- Whether `child` is the node with a role in this one. -/
def hasChild (c : Cursor) (field : Field) (child : Cursor) : Bool :=
  match c.child? field with
  | some found => found.sameNode child
  | none => false

/-- The first of the nodes above a place that is of a kind. -/
def nearest? (p : Kind → Bool) (unit : SourceUnit) : List Node → Option Cursor
  | [] => none
  | node :: above => if p node.label.kind then some ⟨unit, node, above⟩ else nearest? p unit above

/-- The nearest proper ancestor of a kind. -/
def ancestor? (p : Kind → Bool) (c : Cursor) : Option Cursor :=
  nearest? p c.unit c.above

/-- The nodes above a place that are of a kind, nearest first. -/
def selectAncestors (p : Kind → Bool) (unit : SourceUnit) : List Node → List Cursor
  | [] => []
  | node :: above =>
      if p node.label.kind then ⟨unit, node, above⟩ :: selectAncestors p unit above
      else selectAncestors p unit above

/-- All proper ancestors of a kind, nearest first. -/
def ancestors (p : Kind → Bool) (c : Cursor) : List Cursor :=
  selectAncestors p c.unit c.above

/-- The bytes of the node. -/
def bytes (c : Cursor) : Bytes :=
  (c.unit.source.extract c.label.start c.label.stop).toList

/-- The text of the node. -/
def text (c : Cursor) : Text :=
  Utf8.decodeLossy c.bytes

/-- The place of the node for reports.  Lines and columns count from one. -/
def span (c : Cursor) : SourceSpan where
  start := c.label.start
  stop := c.label.stop
  line := c.label.point.row + 1
  column := c.label.point.column + 1
  path := c.unit.path

mutual

/-- The named nodes of a tree in preorder.  Nodes below a node with `cut` are left out. -/
def walkNode (cut : Cursor → Bool) (unit : SourceUnit) (above : List Node) : Node → List Cursor
  | .mk label children =>
      let here : Cursor := ⟨unit, .mk label children, above⟩
      here :: if cut here then [] else walkNodes cut unit (.mk label children :: above) children

/-- The named nodes of a row of trees in preorder. -/
def walkNodes (cut : Cursor → Bool) (unit : SourceUnit) (above : List Node) :
    List Node → List Cursor
  | [] => []
  | first :: rest =>
      (if first.label.named then walkNode cut unit above first else [])
        ++ walkNodes cut unit above rest

end

/-- The nodes from here down in preorder, without those below a node with `cut`. -/
def walkUntil (cut : Cursor → Bool) (c : Cursor) : List Cursor :=
  walkNode cut c.unit c.above c.node

/-- The nodes from here down in preorder. -/
def walk (c : Cursor) : List Cursor :=
  c.walkUntil fun _ => false

end Cursor

namespace SourceUnit

/-- The named nodes of a file in preorder. -/
def cursors (unit : SourceUnit) : List Cursor :=
  unit.top.walk

/-- The identities of all nodes of a file, unnamed ones included. -/
def nodeKeys (unit : SourceUnit) : List NodeKey :=
  unit.root.labels.map fun label => ⟨label.start, label.stop, label.kind, unit.path⟩

end SourceUnit

end MessageKeys.Syntax
