import MessageKeys.Syntax.Kind
import MessageKeys.Text.Utf8

/-!
# Syntax trees

A source file comes with the syntax tree that a parser made of it.  Trees are exchanged as
rows in preorder, each with its depth; `Node.ofRows?` builds the tree from the last row to
the first, so that the subtrees of a row are the finished trees below it that come next.
-/

namespace MessageKeys.Syntax

/-- A place in a text by row and column, both counted from zero.  Columns are bytes. -/
structure Point where
  row : Nat
  column : Nat
  deriving DecidableEq, Repr

namespace Point

/-- The byte that ends a line. -/
def lineFeed : UInt8 := 0x0a

/-- The place after some bytes. -/
def after (bytes : Bytes) : Point where
  row := bytes.count lineFeed
  column := (bytes.reverse.takeWhile (· ≠ lineFeed)).length

end Point

/-- What a node of a syntax tree says about itself: its kind, whether the grammar names
it, whether error recovery put it in, its range of bytes, the place where it starts and its
role in its parent.  The parser counts bytes and lines on its own account. -/
structure Label where
  kind : Kind
  named : Bool
  missing : Bool
  start : Nat
  stop : Nat
  point : Point
  field : Option Field
  deriving DecidableEq, Repr

/-- A syntax tree. -/
inductive Node where
  | mk (label : Label) (children : List Node)
  deriving Repr

namespace Node

/-- The label of the top node. -/
def label : Node → Label
  | mk label _ => label

/-- The trees directly below the top node. -/
def children : Node → List Node
  | mk _ children => children

instance : Inhabited Node := ⟨mk ⟨.program, true, false, 0, 0, ⟨0, 0⟩, none⟩ []⟩

mutual

/-- Whether two trees are the same. -/
def same : Node → Node → Bool
  | mk label₁ children₁, mk label₂ children₂ =>
      decide (label₁ = label₂) && sameAll children₁ children₂

/-- Whether two rows of trees are the same. -/
def sameAll : List Node → List Node → Bool
  | [], [] => true
  | first₁ :: rest₁, first₂ :: rest₂ => same first₁ first₂ && sameAll rest₁ rest₂
  | _, _ => false

end

mutual

theorem same_iff (left right : Node) : same left right = true ↔ left = right := by
  cases left with
  | mk label₁ children₁ =>
      cases right with
      | mk label₂ children₂ => simp [same, sameAll_iff children₁ children₂]

theorem sameAll_iff (left right : List Node) : sameAll left right = true ↔ left = right := by
  cases left with
  | nil => cases right <;> simp [sameAll]
  | cons first₁ rest₁ =>
      cases right with
      | nil => simp [sameAll]
      | cons first₂ rest₂ => simp [sameAll, same_iff first₁ first₂, sameAll_iff rest₁ rest₂]

end

instance : DecidableEq Node := fun left right =>
  decidable_of_iff _ (same_iff left right)

mutual

/-- The labels of all nodes, in preorder. -/
def labels : Node → List Label
  | mk label children => label :: labelsAll children

/-- The labels of all nodes of a row of trees, in preorder. -/
def labelsAll : List Node → List Label
  | [] => []
  | first :: rest => labels first ++ labelsAll rest

end

/-- Whether the parser had to recover from an error somewhere in the tree. -/
def hasErrors (tree : Node) : Bool :=
  tree.labels.any fun label => label.kind == .error || label.missing

end Node

/-- A node of a tree written in preorder. -/
structure Row where
  depth : Nat
  label : Label
  deriving DecidableEq, Repr

namespace Node

/-- Put a row in front of finished trees: those deeper than the row that come next are its
children. -/
def gather (row : Row) (finished : List (Nat × Node)) : List (Nat × Node) :=
  let (below, others) := finished.span fun tree => decide (row.depth < tree.1)
  (row.depth, mk row.label (below.map Prod.snd)) :: others

/-- The tree whose preorder the rows list. -/
def ofRows? (rows : List Row) : Option Node :=
  (rows.foldr gather []).head?.map Prod.snd

end Node

end MessageKeys.Syntax
