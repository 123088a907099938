import Mathlib.Data.List.Basic
import Mathlib.Data.List.Flatten
import MessageKeys.Syntax.Cursor

/-!
# The nodes of a file

A cursor pairs any node with any list of ancestors.  This file singles out the cursors that
stand at a node of their file and says how the walks over a file enumerate them.

* `Cursor.Beneath`: a node is reached from another by going down; `Cursor.In`: from the top
  of the file.  Going up (`In.of_mem_lineage`) and down (`In.child?`) stays in the file, and
  the identity of such a cursor is one of the file's (`In.key_mem_nodeKeys`).
* `Cursor.Under`: a node is reached from another through named nodes only.  A walk lists
  exactly these (`mem_walk`), and the walk from a lower node is a contiguous part of the walk
  from a higher one (`walk_eq_append`): this is what makes a search below one node part of a
  search over the whole file.
* `SourceUnit.places`: all nodes of a file in preorder, unnamed ones included.  A walk meets some
  of them in this order (`walkUntil_sublist_places`).  The named ones among them are those of
  `SourceUnit.cursors` if unnamed nodes have nothing below them (`filter_named_places`).
-/

namespace MessageKeys.Syntax

namespace Cursor

/-- The node is reached from `c` by going down. -/
inductive Beneath (c : Cursor) : Cursor → Prop
  | here : Beneath c c
  | down {d : Cursor} {node : Node} (hd : Beneath c d) (hnode : node ∈ d.node.children) :
      Beneath c (d.below node)

/-- The cursor stands at a node of the file. -/
def In (unit : SourceUnit) (c : Cursor) : Prop :=
  Beneath unit.top c

/-- All proper ancestors of a node, nearest first. -/
def lineage (c : Cursor) : List Cursor :=
  c.ancestors fun _ => true

/-- The node is reached from `c` through named nodes. -/
inductive Under (c : Cursor) : Cursor → Prop
  | here : Under c c
  | down {d : Cursor} {node : Node} (hd : Under c d) (hnode : node ∈ d.node.children)
      (hnamed : node.label.named = true) : Under c (d.below node)

/-! ## Going up -/

@[simp] theorem lineage_top (unit : SourceUnit) : unit.top.lineage = [] := rfl

@[simp] theorem lineage_below (c : Cursor) (node : Node) :
    (c.below node).lineage = c :: c.lineage := rfl

theorem selectAncestors_eq_filter (p : Kind → Bool) (unit : SourceUnit) (above : List Node) :
    selectAncestors p unit above =
      (selectAncestors (fun _ => true) unit above).filter fun a => p a.kind := by
  induction above with
  | nil => rfl
  | cons node rest ih =>
      by_cases hnode : p node.label.kind <;> simp [selectAncestors, kind, label, hnode, ih]

theorem nearest?_eq_find? (p : Kind → Bool) (unit : SourceUnit) (above : List Node) :
    nearest? p unit above =
      (selectAncestors (fun _ => true) unit above).find? fun a => p a.kind := by
  induction above with
  | nil => rfl
  | cons node rest ih =>
      by_cases hnode : p node.label.kind <;> simp [nearest?, selectAncestors, kind, label, hnode,
        ih]

theorem ancestors_eq_filter (p : Kind → Bool) (c : Cursor) :
    c.ancestors p = c.lineage.filter fun a => p a.kind :=
  selectAncestors_eq_filter p c.unit c.above

theorem ancestor?_eq_find? (p : Kind → Bool) (c : Cursor) :
    c.ancestor? p = c.lineage.find? fun a => p a.kind :=
  nearest?_eq_find? p c.unit c.above

theorem parent?_eq_head? (c : Cursor) : c.parent? = c.lineage.head? := by
  obtain ⟨unit, node, above⟩ := c
  cases above <;> rfl

theorem mem_lineage_of_parent? {c parent : Cursor} (h : c.parent? = some parent) :
    parent ∈ c.lineage := by
  rw [parent?_eq_head?] at h
  exact List.mem_of_mem_head? h

theorem mem_lineage_of_ancestor? {p : Kind → Bool} {c a : Cursor} (h : c.ancestor? p = some a) :
    a ∈ c.lineage := by
  rw [ancestor?_eq_find?] at h
  exact List.mem_of_find?_eq_some h

/-- The number of nodes above. -/
def depth (c : Cursor) : Nat :=
  c.above.length

theorem mem_lineage_iff {c a : Cursor} :
    a ∈ c.lineage ↔ a.unit = c.unit ∧ (a.node :: a.above) <:+ c.above := by
  obtain ⟨unit, node, above⟩ := c
  obtain ⟨unit', node', above'⟩ := a
  induction above with
  | nil => simp [lineage, ancestors, selectAncestors]
  | cons first rest ih =>
      have hcons : (⟨unit, node, first :: rest⟩ : Cursor).lineage =
          ⟨unit, first, rest⟩ :: (⟨unit, node, rest⟩ : Cursor).lineage := rfl
      rw [hcons, List.mem_cons, ih, List.suffix_cons_iff]
      simp only [Cursor.mk.injEq, List.cons.injEq]
      tauto

theorem mem_lineage_trans {a b c : Cursor} (hab : a ∈ b.lineage) (hbc : b ∈ c.lineage) :
    a ∈ c.lineage := by
  obtain ⟨hunit, hsuffix⟩ := mem_lineage_iff.mp hab
  obtain ⟨hunit', hsuffix'⟩ := mem_lineage_iff.mp hbc
  exact mem_lineage_iff.mpr
    ⟨hunit.trans hunit', (hsuffix.trans (List.suffix_cons _ _)).trans hsuffix'⟩

/-- Of two nodes above a third one, that which is farther away is above the other. -/
theorem pairwise_lineage (c : Cursor) : c.lineage.Pairwise fun near far => far ∈ near.lineage := by
  obtain ⟨unit, node, above⟩ := c
  induction above with
  | nil => exact .nil
  | cons first rest ih => exact .cons (fun _ hfar => hfar) ih

theorem depth_lt_of_mem_lineage {a c : Cursor} (h : a ∈ c.lineage) : a.depth < c.depth := by
  have hlength := (mem_lineage_iff.mp h).2.length_le
  rw [List.length_cons] at hlength
  exact hlength

theorem depth_eq_of_parent? {c parent : Cursor} (h : c.parent? = some parent) :
    c.depth = parent.depth + 1 := by
  obtain ⟨unit, node, above⟩ := c
  cases above with
  | nil => simp [parent?] at h
  | cons first rest =>
      have heq : (⟨unit, first, rest⟩ : Cursor) = parent := by simpa [parent?] using h
      rw [← heq]
      rfl

/-! ## Going down -/

theorem mem_children {c d : Cursor} :
    d ∈ c.children ↔ ∃ node ∈ c.node.children, c.below node = d :=
  List.mem_map

theorem mem_namedChildren {c d : Cursor} :
    d ∈ c.namedChildren ↔ d ∈ c.children ∧ d.label.named = true :=
  List.mem_filter

theorem mem_children_of_child? {c d : Cursor} {field : Field} (h : c.child? field = some d) :
    d ∈ c.children :=
  List.mem_of_find?_eq_some h

theorem field_of_child? {c d : Cursor} {field : Field} (h : c.child? field = some d) :
    d.label.field = some field := by
  have hfound := List.find?_some h
  simpa using hfound

@[simp] theorem parent?_below (c : Cursor) (node : Node) : (c.below node).parent? = some c := rfl

theorem parent?_of_mem_children {c d : Cursor} (h : d ∈ c.children) : d.parent? = some c := by
  obtain ⟨node, _, rfl⟩ := mem_children.mp h
  exact parent?_below c node

theorem parent?_of_child? {c d : Cursor} {field : Field} (h : c.child? field = some d) :
    d.parent? = some c :=
  parent?_of_mem_children (mem_children_of_child? h)

/-- Nodes in one role of a node have one identity. -/
theorem key_eq_of_hasChild {parent c d : Cursor} {field : Field} (hunit : c.unit = d.unit)
    (hc : parent.hasChild field c = true) (hd : parent.hasChild field d = true) :
    c.key = d.key := by
  unfold hasChild at hc hd
  cases hfound : parent.child? field with
  | none => simp [hfound] at hc
  | some found =>
      simp only [hfound, sameNode, Bool.and_eq_true, decide_eq_true_eq] at hc hd
      obtain ⟨⟨hstart, hstop⟩, hkind⟩ := hc
      obtain ⟨⟨hstart', hstop'⟩, hkind'⟩ := hd
      rw [key, key, ← hstart, ← hstop, ← hkind, hstart', hstop', hkind', hunit]

namespace Beneath

variable {c d e : Cursor}

theorem of_mem_children (h : Beneath c d) (he : e ∈ d.children) : Beneath c e := by
  obtain ⟨node, hnode, rfl⟩ := mem_children.mp he
  exact h.down hnode

theorem of_mem_namedChildren (h : Beneath c d) (he : e ∈ d.namedChildren) : Beneath c e :=
  h.of_mem_children (mem_namedChildren.mp he).1

theorem child? {field : Field} (h : Beneath c d) (he : d.child? field = some e) : Beneath c e :=
  h.of_mem_children (mem_children_of_child? he)

theorem trans (hcd : Beneath c d) (hde : Beneath d e) : Beneath c e := by
  induction hde with
  | here => exact hcd
  | down _ hnode ih => exact ih.down hnode

theorem unit_eq (h : Beneath c d) : d.unit = c.unit := by
  induction h with
  | here => rfl
  | down _ _ ih => exact ih

theorem eq_or_mem_lineage (h : Beneath c d) : d = c ∨ c ∈ d.lineage := by
  induction h with
  | here => exact Or.inl rfl
  | down _ _ ih =>
      rw [lineage_below]
      rcases ih with rfl | hmem
      · exact Or.inr List.mem_cons_self
      · exact Or.inr (List.mem_cons_of_mem _ hmem)

theorem depth_le (h : Beneath c d) : c.depth ≤ d.depth := by
  rcases h.eq_or_mem_lineage with rfl | hmem
  · exact Nat.le_refl _
  · exact Nat.le_of_lt (depth_lt_of_mem_lineage hmem)

theorem eq_of_leaf (h : Beneath c d) (hleaf : c.node.children = []) : d = c := by
  induction h with
  | here => rfl
  | down _ hnode ih =>
      rw [ih, hleaf] at hnode
      simp at hnode

end Beneath

namespace In

variable {unit : SourceUnit} {c d : Cursor}

theorem top : In unit unit.top :=
  .here

theorem unit_eq (h : In unit c) : c.unit = unit :=
  Beneath.unit_eq h

theorem of_mem_lineage (h : In unit c) {a : Cursor} (ha : a ∈ c.lineage) : In unit a := by
  induction h with
  | here => simp at ha
  | down hd _ ih =>
      rw [lineage_below] at ha
      rcases List.mem_cons.mp ha with rfl | ha
      · exact hd
      · exact ih ha

theorem of_mem_namedChildren (h : In unit c) (hd : d ∈ c.namedChildren) : In unit d :=
  Beneath.of_mem_namedChildren h hd

theorem child? {field : Field} (h : In unit c) (hd : c.child? field = some d) : In unit d :=
  Beneath.child? h hd

theorem beneath (h : In unit c) (hd : Beneath c d) : In unit d :=
  Beneath.trans h hd

end In

end Cursor

/-! ## The identities of a file -/

namespace Node

theorem labels_subset_labelsAll {node : Node} {nodes : List Node} (h : node ∈ nodes) :
    node.labels ⊆ labelsAll nodes := by
  induction nodes with
  | nil => simp at h
  | cons first rest ih =>
      intro found hfound
      rw [labelsAll]
      rcases List.mem_cons.mp h with rfl | h
      · exact List.mem_append_left _ hfound
      · exact List.mem_append_right _ (ih h hfound)

theorem labels_subset_of_mem_children {parent node : Node} (h : node ∈ parent.children) :
    node.labels ⊆ parent.labels := by
  cases parent with
  | mk label children =>
      intro found hfound
      rw [labels]
      exact List.mem_cons_of_mem _ (labels_subset_labelsAll h hfound)

theorem label_mem_labels (node : Node) : node.label ∈ node.labels := by
  cases node with
  | mk label children => exact List.mem_cons_self

end Node

namespace Cursor

theorem In.labels_subset {unit : SourceUnit} {c : Cursor} (h : In unit c) :
    c.node.labels ⊆ unit.root.labels := by
  induction h with
  | here => exact fun _ hlabel => hlabel
  | down _ hnode ih => exact fun _ hlabel => ih (Node.labels_subset_of_mem_children hnode hlabel)

/-- The identity of a node of the file is among the file's identities. -/
theorem In.key_mem_nodeKeys {unit : SourceUnit} {c : Cursor} (h : In unit c) :
    c.key ∈ unit.nodeKeys := by
  refine List.mem_map.mpr ⟨c.label, h.labels_subset (Node.label_mem_labels _), ?_⟩
  rw [key, h.unit_eq]

/-- Cursors of one file with the same identity have the same text. -/
theorem text_eq_of_key_eq {c d : Cursor} (hunit : c.unit = d.unit) (hkey : c.key = d.key) :
    c.text = d.text := by
  simp only [key, NodeKey.mk.injEq] at hkey
  rw [text, text, bytes, bytes, hunit, hkey.1, hkey.2.1]

/-! ## Walks -/

theorem Under.trans {c d e : Cursor} (hcd : Under c d) (hde : Under d e) : Under c e := by
  induction hde with
  | here => exact hcd
  | down _ hnode hnamed ih => exact ih.down hnode hnamed

theorem Under.beneath {c d : Cursor} (h : Under c d) : Beneath c d := by
  induction h with
  | here => exact .here
  | down _ hnode _ ih => exact ih.down hnode

/-- What stands between two nodes of a walk belongs to the walk as well: an ancestor is
either above the start or on the way. -/
theorem Under.of_mem_lineage {unit : SourceUnit} {c a : Cursor} (h : Under unit.top c)
    (ha : a ∈ c.lineage) : Under unit.top a ∧ Under a c := by
  induction h with
  | here => simp at ha
  | down hd hnode hnamed ih =>
      rw [lineage_below] at ha
      rcases List.mem_cons.mp ha with rfl | ha
      · exact ⟨hd, .down .here hnode hnamed⟩
      · obtain ⟨htop, hbelow⟩ := ih ha
        exact ⟨htop, hbelow.down hnode hnamed⟩

theorem walkUntil_eq (cut : Cursor → Bool) (c : Cursor) :
    c.walkUntil cut =
      c :: if cut c then [] else walkNodes cut c.unit (c.node :: c.above) c.node.children := by
  obtain ⟨unit, ⟨label, children⟩, above⟩ := c
  rfl

theorem walkNodes_eq_flatMap (cut : Cursor → Bool) (unit : SourceUnit) (above nodes : List Node) :
    walkNodes cut unit above nodes =
      (nodes.filter fun node => node.label.named).flatMap (walkNode cut unit above) := by
  induction nodes with
  | nil => rfl
  | cons first rest ih => by_cases hnamed : first.label.named <;> simp [walkNodes, hnamed, ih]

/-- A walk goes to the node and then through the walks of its named children. -/
theorem walkUntil_eq_flatMap (cut : Cursor → Bool) (c : Cursor) :
    c.walkUntil cut =
      c :: if cut c then [] else c.namedChildren.flatMap (walkUntil cut) := by
  rw [walkUntil_eq, walkNodes_eq_flatMap, namedChildren, children, List.filter_map,
    List.flatMap_map]
  rfl

/-- A fact about every node follows from what it is about the nodes directly below. -/
theorem induction_down {motive : Cursor → Prop}
    (h : ∀ c : Cursor, (∀ d ∈ c.children, motive d) → motive c) (c : Cursor) : motive c :=
  h c fun d _ => induction_down h d
termination_by sizeOf c.node
decreasing_by
  rename_i hd
  obtain ⟨node, hnode, rfl⟩ := mem_children.mp hd
  obtain ⟨unit, ⟨label, children⟩, above⟩ := c
  have hsize : sizeOf node < sizeOf children := List.sizeOf_lt_of_mem hnode
  simp only [Node.mk.sizeOf_spec, below]
  omega

theorem under_of_mem_walkUntil {cut : Cursor → Bool} {c d : Cursor} (h : d ∈ c.walkUntil cut) :
    Under c d := by
  induction c using induction_down with
  | h c ih =>
      rw [walkUntil_eq_flatMap] at h
      rcases List.mem_cons.mp h with rfl | h
      · exact .here
      · split at h
        · simp at h
        · obtain ⟨child, hchild, hd⟩ := List.mem_flatMap.mp h
          obtain ⟨hmem, hnamed⟩ := mem_namedChildren.mp hchild
          have hbelow : Under child d := ih child hmem hd
          obtain ⟨node, hnode, rfl⟩ := mem_children.mp hmem
          exact Under.trans (.down .here hnode hnamed) hbelow

theorem walk_eq_flatMap (c : Cursor) : c.walk = c :: c.namedChildren.flatMap walk := by
  rw [walk, walkUntil_eq_flatMap]
  rfl

/-- The walk from a node is a contiguous part of every walk that comes to the node. -/
theorem walk_eq_append {c d : Cursor} (h : Under c d) :
    ∃ front back, c.walk = front ++ d.walk ++ back := by
  induction h with
  | here => exact ⟨[], [], by simp⟩
  | @down e node _ hnode hnamed ih =>
      obtain ⟨front, back, hwalk⟩ := ih
      have hchild : e.below node ∈ e.namedChildren :=
        mem_namedChildren.mpr ⟨mem_children.mpr ⟨node, hnode, rfl⟩, hnamed⟩
      -- the walk of `e` is `e`, then the walks of the children before, at and after the node
      obtain ⟨before, after, hsplit⟩ := List.append_of_mem hchild
      refine ⟨front ++ e :: before.flatMap walk, after.flatMap walk ++ back, ?_⟩
      rw [hwalk, walk_eq_flatMap e, hsplit]
      simp

/-- A walk lists the nodes that are reached through named nodes. -/
theorem mem_walk {c d : Cursor} : d ∈ c.walk ↔ Under c d := by
  constructor
  · exact under_of_mem_walkUntil
  · intro h
    obtain ⟨front, back, hwalk⟩ := walk_eq_append h
    rw [hwalk, walk_eq_flatMap d]
    simp

/-- Stopping at nodes with nothing below them leaves nothing out. -/
theorem walkUntil_eq_walk {cut : Cursor → Bool} {c : Cursor}
    (hcut : ∀ d, Under c d → cut d = true → d.node.children = []) :
    c.walkUntil cut = c.walk := by
  induction c using induction_down with
  | h c ih =>
      rw [walkUntil_eq_flatMap, walk_eq_flatMap]
      congr 1
      split
      · -- the walk stops here, where there is nothing more to come
        rename_i hc
        have hnone : c.namedChildren = [] := by
          rw [namedChildren, children, hcut c .here hc]
          rfl
        rw [hnone]
        rfl
      · refine List.flatMap_congr fun child hchild => ih child (mem_namedChildren.mp hchild).1 ?_
        intro d hd
        obtain ⟨hmem, hnamed⟩ := mem_namedChildren.mp hchild
        obtain ⟨node, hnode, rfl⟩ := mem_children.mp hmem
        exact hcut d (Under.trans (.down .here hnode hnamed) hd)

/-! ## All nodes -/

mutual

/-- All nodes of a tree in preorder. -/
def placesNode (unit : SourceUnit) (above : List Node) : Node → List Cursor
  | .mk label children =>
      ⟨unit, .mk label children, above⟩ :: placesNodes unit (.mk label children :: above) children

/-- All nodes of a row of trees in preorder. -/
def placesNodes (unit : SourceUnit) (above : List Node) : List Node → List Cursor
  | [] => []
  | first :: rest => placesNode unit above first ++ placesNodes unit above rest

end

/-- All nodes from here down in preorder. -/
def places (c : Cursor) : List Cursor :=
  placesNode c.unit c.above c.node

theorem placesNodes_eq_flatMap (unit : SourceUnit) (above nodes : List Node) :
    placesNodes unit above nodes = nodes.flatMap (placesNode unit above) := by
  induction nodes with
  | nil => rfl
  | cons first rest ih => simp [placesNodes, ih]

theorem places_eq_flatMap (c : Cursor) : c.places = c :: c.children.flatMap places := by
  obtain ⟨unit, ⟨label, nodes⟩, above⟩ := c
  rw [places, placesNode, placesNodes_eq_flatMap, children, List.flatMap_map]
  rfl

end Cursor

/-- All nodes of a file in preorder, unnamed ones included. -/
def SourceUnit.places (unit : SourceUnit) : List Cursor :=
  unit.top.places

namespace Cursor

theorem beneath_of_mem_places {c d : Cursor} (h : d ∈ c.places) : Beneath c d := by
  induction c using induction_down with
  | h c ih =>
      rw [places_eq_flatMap] at h
      rcases List.mem_cons.mp h with rfl | h
      · exact .here
      · obtain ⟨child, hchild, hd⟩ := List.mem_flatMap.mp h
        exact (Beneath.here.of_mem_children hchild).trans (ih child hchild hd)

/-- A walk meets some of all nodes, in their order. -/
theorem walkUntil_sublist_places (cut : Cursor → Bool) (c : Cursor) :
    (c.walkUntil cut).Sublist c.places := by
  induction c using induction_down with
  | h c ih =>
      rw [walkUntil_eq_flatMap, places_eq_flatMap]
      apply List.Sublist.cons_cons
      split
      · exact List.nil_sublist _
      · calc (c.namedChildren.flatMap (walkUntil cut)).Sublist (c.namedChildren.flatMap places) :=
              List.Sublist.flatMap_right _ fun child hchild =>
                ih child (mem_namedChildren.mp hchild).1
          List.Sublist _ (c.children.flatMap places) := List.filter_sublist.flatMap _

/-- The nodes from a lower node down are some of those from a higher one. -/
theorem Beneath.places_sublist {c d : Cursor} (h : Beneath c d) : d.places.Sublist c.places := by
  induction h with
  | here => exact List.Sublist.refl _
  | @down d node _ hnode ih =>
      have hchild : [d.below node].Sublist d.children :=
        List.singleton_sublist.mpr (mem_children.mpr ⟨node, hnode, rfl⟩)
      have hrow := hchild.flatMap places
      rw [List.flatMap_singleton] at hrow
      rw [places_eq_flatMap d] at ih
      exact (hrow.trans (List.sublist_cons_self _ _)).trans ih

theorem mem_places_self (c : Cursor) : c ∈ c.places := by
  rw [places_eq_flatMap]
  exact List.mem_cons_self

theorem Beneath.mem_places {c d : Cursor} (h : Beneath c d) : d ∈ c.places :=
  h.places_sublist.subset d.mem_places_self

theorem mem_unit_places {unit : SourceUnit} {c : Cursor} : c ∈ unit.places ↔ In unit c :=
  ⟨beneath_of_mem_places, Beneath.mem_places⟩

theorem mem_unit_cursors {unit : SourceUnit} {c : Cursor} : c ∈ unit.cursors ↔ Under unit.top c :=
  mem_walk

/-- Only the top of a file can be on the walk over it without being named. -/
theorem named_of_mem_cursors {unit : SourceUnit} {c above : Cursor} (h : c ∈ unit.cursors)
    (habove : above ∈ c.lineage) : c.label.named = true := by
  cases mem_unit_cursors.mp h with
  | here => simp at habove
  | down _ _ hnamed => exact hnamed

theorem mem_cursors_of_mem_lineage {unit : SourceUnit} {c above : Cursor} (h : c ∈ unit.cursors)
    (habove : above ∈ c.lineage) : above ∈ unit.cursors :=
  mem_unit_cursors.mpr ((mem_unit_cursors.mp h).of_mem_lineage habove).1

theorem In.of_mem_cursors {unit : SourceUnit} {c : Cursor} (h : c ∈ unit.cursors) : In unit c :=
  (mem_unit_cursors.mp h).beneath

/-- If unnamed nodes have nothing below them, the named nodes of a tree are those of the
walk over it. -/
theorem filter_named_places {c : Cursor} (hnamed : c.label.named = true)
    (hleaf : ∀ d ∈ c.places, d.label.named = false → d.node.children = []) :
    c.places.filter (fun d => d.label.named) = c.walk := by
  induction c using induction_down with
  | h c ih =>
      have hchild : ∀ child ∈ c.children, child.places.filter (fun d => d.label.named) =
          if child.label.named then child.walk else [] := by
        intro child hmem
        have hbelow : ∀ d ∈ child.places, d.label.named = false → d.node.children = [] := by
          intro d hd
          apply hleaf
          rw [places_eq_flatMap]
          exact List.mem_cons_of_mem _ (List.mem_flatMap.mpr ⟨child, hmem, hd⟩)
        split
        · rename_i hchild
          exact ih child hmem hchild hbelow
        · -- an unnamed child is left out, and nothing is below it
          rename_i hchild
          have hfalse : child.label.named = false := by simpa using hchild
          have hnone : child.children = [] := by
            rw [children, hbelow child child.mem_places_self hfalse]
            rfl
          rw [places_eq_flatMap, hnone]
          simp [hfalse]
      have hrow : ∀ row : List Cursor,
          row.flatMap (fun child => if child.label.named then child.walk else []) =
            (row.filter fun child => child.label.named).flatMap walk := by
        intro row
        induction row with
        | nil => rfl
        | cons first rest ihrest => by_cases hfirst : first.label.named <;> simp [hfirst, ihrest]
      rw [places_eq_flatMap, walk_eq_flatMap, List.filter_cons, if_pos hnamed,
        List.filter_flatMap, List.flatMap_congr hchild, hrow, namedChildren]

end Cursor

end MessageKeys.Syntax
