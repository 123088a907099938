import Mathlib.Data.List.Find
import MessageKeys.Proofs.Syntax.Shadowing

/-!
# What a scope declares at its own node

Names come into a scope from two sides: a function or a loop declares some at its own node, as
parameters or as loop variables, and nodes further in add others, a `var` from any depth.  The first
declaration counts.  This file shows that the node's own come first (`lookup?_of_own`): a walk meets
a node before everything below it (`mem_lineage_or_mem_of_prefix_walk`), and only the node itself
and what is below it declare names in it.

For a function this decides what its parameters mean (`declarationOf?_eq_parameter_iff`).  A
parameter is what its name means throughout the function, except in a function expression that is
itself called like the parameter: there the name means the function, which was declared first.

Nothing here needs all nodes of a file to be told apart, only its scopes (`SourceUnit.ScopesApart`),
so it holds of files with syntax errors as well.
-/

namespace MessageKeys.Syntax

open Cursor

namespace Cursor

/-! ## A walk meets a node before what is below it -/

/-- What is in the beginning of a row of lists is in the beginning of one of them. -/
theorem exists_piece_of_prefix_flatMap {α β : Type} {f : α → List β} {l : List α} {front : List β}
    {b : β} (hfront : front <+: l.flatMap f) (hb : b ∈ front) :
    ∃ a ∈ l, ∃ piece, piece <+: f a ∧ b ∈ piece ∧ piece ⊆ front := by
  induction l generalizing front with
  | nil =>
      rw [List.flatMap_nil, List.prefix_nil] at hfront
      simp [hfront] at hb
  | cons first rest ih =>
      rw [List.flatMap_cons] at hfront
      rcases List.prefix_or_prefix_of_prefix hfront (List.prefix_append _ _) with hshort | hlong
      · exact ⟨first, List.mem_cons_self, front, hshort, hb, fun _ h => h⟩
      · obtain ⟨others, rfl⟩ := hlong
        rcases List.mem_append.mp hb with hb | hb
        · exact ⟨first, List.mem_cons_self, f first, List.prefix_rfl, hb,
            List.subset_append_left _ _⟩
        · obtain ⟨a, ha, piece, hpiece, hmem, hsub⟩ :=
            ih ((List.prefix_append_right_inj _).mp hfront) hb
          exact ⟨a, List.mem_cons_of_mem _ ha, piece, hpiece, hmem,
            List.Subset.trans hsub (List.subset_append_right _ _)⟩

/-- With a node, the beginning of a walk has all that is above the node and not above the walk. -/
theorem mem_lineage_or_mem_of_prefix_walk {c d a : Cursor} {front : List Cursor}
    (hfront : front <+: c.walk) (hd : d ∈ front) (ha : a ∈ d.lineage) :
    a ∈ c.lineage ∨ a ∈ front := by
  induction c using induction_down generalizing front with
  | h c ih =>
      rw [walk_eq_flatMap, List.prefix_cons_iff] at hfront
      rcases hfront with rfl | ⟨rest, rfl, hrest⟩
      · simp at hd
      rcases List.mem_cons.mp hd with rfl | hd
      · exact Or.inl ha
      obtain ⟨child, hchild, piece, hpiece, hmem, hsub⟩ := exists_piece_of_prefix_flatMap hrest hd
      have hinner := (mem_namedChildren.mp hchild).1
      obtain ⟨node, _, rfl⟩ := mem_children.mp hinner
      rcases ih _ hinner hpiece hmem with habove | hpieceMem
      · rw [lineage_below] at habove
        rcases List.mem_cons.mp habove with rfl | habove
        · exact Or.inr List.mem_cons_self
        · exact Or.inl habove
      · exact Or.inr (List.mem_cons_of_mem _ (hsub hpieceMem))

/-! ## Scopes around a node -/

theorem kind_of_ancestor? {p : Kind → Bool} {c a : Cursor} (h : c.ancestor? p = some a) :
    p a.kind = true := by
  rw [ancestor?_eq_find?] at h
  exact List.find?_some (p := fun a : Cursor => p a.kind) h

theorem isScope_of_isHoistTarget {kind : Kind} (h : kind.isHoistTarget = true) :
    kind.isScope = true := by
  cases kind <;> simp_all [Kind.isHoistTarget, Kind.isScope, Kind.isFunction]

/-- What is above a node goes on, from one of them, with what is above that one. -/
theorem lineage_eq_append {c a : Cursor} (h : a ∈ c.lineage) :
    ∃ front, c.lineage = front ++ a :: a.lineage := by
  obtain ⟨unit, node, above⟩ := c
  induction above with
  | nil => simp [lineage, ancestors, selectAncestors] at h
  | cons first rest ih =>
      have hcons : (⟨unit, node, first :: rest⟩ : Cursor).lineage =
          ⟨unit, first, rest⟩ :: (⟨unit, node, rest⟩ : Cursor).lineage := rfl
      rw [hcons] at h ⊢
      rcases List.mem_cons.mp h with rfl | h
      · exact ⟨[], rfl⟩
      · obtain ⟨front, hfront⟩ := ih h
        exact ⟨⟨unit, first, rest⟩ :: front, by rw [hfront]; rfl⟩

theorem scopes_eq_append {c scope : Cursor} (h : scope ∈ c.lineage)
    (hkind : scope.kind.isScope = true) : ∃ front, c.scopes = front ++ scope :: scope.scopes := by
  obtain ⟨front, hfront⟩ := lineage_eq_append h
  refine ⟨front.filter fun a => a.kind.isScope, ?_⟩
  rw [scopes, ancestors_eq_filter, hfront, List.filter_append, scopes, ancestors_eq_filter,
    List.filter_cons_of_pos (p := fun a : Cursor => a.kind.isScope) hkind]

end Cursor

/-- Whether a declaration is one of the name in the scope. -/
def Declaration.isOf (scope : Cursor) (name : Text) (d : Declaration) : Bool :=
  decide (d.scope = scope) && decide (d.name = name)

/-- Identities tell each scope apart from all other named nodes. -/
def SourceUnit.ScopesApart (unit : SourceUnit) : Prop :=
  ∀ scope ∈ unit.cursors, scope.kind.isScope = true → unit.TellsApart scope

instance (unit : SourceUnit) : Decidable unit.ScopesApart :=
  inferInstanceAs (Decidable (∀ scope ∈ unit.cursors, scope.kind.isScope = true →
    ∀ other ∈ unit.cursors, other.key = scope.key → other = scope))

theorem SourceUnit.ScopesApart.of_mem_lineage {unit : SourceUnit} (h : unit.ScopesApart)
    {n scope : Cursor} (hn : n ∈ unit.cursors) (hscope : scope ∈ n.lineage)
    (hkind : scope.kind.isScope = true) : unit.TellsApart scope :=
  h scope (mem_cursors_of_mem_lineage hn hscope) hkind

namespace ScopeIndex

variable {unit : SourceUnit} {scope owner n : Cursor} {name : Text}

/-! ## The first declaration of a name in a scope -/

instance : Decidable (unit.Declared scope name) :=
  decidable_of_iff _ declared_iff.symm

theorem isOf_iff {d : Declaration} :
    d.isOf scope name = true ↔ d.scope = scope ∧ d.name = name := by
  simp [Declaration.isOf]

theorem lookup?_eq_find? (hapart : unit.TellsApart scope) :
    (ofUnit unit).lookup? scope name =
      ((ofUnit unit).declarations.find? (Declaration.isOf scope name)).map Declaration.binding := by
  rw [lookup?]
  congr 1
  refine List.find?_congr fun d hd => ?_
  rw [Bool.eq_iff_iff, lookup_test_iff_of_apart hapart hd, isOf_iff]

/-- The scope of a declaration stands before the node that declares it, or is that node. -/
theorem scope_mem_of_prefix_cursors {front : List Cursor} (hfront : front <+: unit.cursors)
    {c : Cursor} (hc : c ∈ front) {d : Declaration} (hd : d ∈ c.declarations) :
    d.scope ∈ front := by
  rcases (of_mem_declarations hd).1.scope_cases with hscope | hscope | hscope
  · exact hscope ▸ hc
  · have hmem := mem_lineage_or_mem_of_prefix_walk hfront hc hscope
    exact hmem.resolve_left (by simp)
  · -- the top of the file is the first node of every walk over it
    rw [hscope, (In.of_mem_cursors (hfront.subset hc)).unit_eq]
    rw [SourceUnit.cursors, walk_eq_flatMap, List.prefix_cons_iff] at hfront
    rcases hfront with rfl | ⟨rest, rfl, _⟩
    · simp at hc
    · exact List.mem_cons_self

/-- A name that a scope declares at its own node means there what the node declares first. -/
theorem lookup?_of_own (hapart : unit.TellsApart scope) (hscope : scope ∈ unit.cursors)
    {d : Declaration} (hd : scope.declarations.find? (Declaration.isOf scope name) = some d) :
    (ofUnit unit).lookup? scope name = some d.binding := by
  obtain ⟨front, back, hsplit, hfirst⟩ := List.eq_append_cons_of_mem hscope
  have hfront : front <+: unit.cursors := hsplit ▸ List.prefix_append _ _
  have hnone : (front.flatMap Cursor.declarations).find? (Declaration.isOf scope name) = none := by
    apply List.find?_eq_none.mpr
    intro e he htest
    obtain ⟨c, hc, hec⟩ := List.mem_flatMap.mp he
    apply hfirst
    rw [← (isOf_iff.mp htest).1]
    exact scope_mem_of_prefix_cursors hfront hc hec
  have hall : (ofUnit unit).declarations = front.flatMap Cursor.declarations ++
      (scope.declarations ++ back.flatMap Cursor.declarations) := by
    rw [ofUnit, hsplit, List.flatMap_append, List.flatMap_cons]
  rw [lookup?_eq_find? hapart, hall, List.find?_append, List.find?_append, hnone, hd]
  rfl

/-- A name that is declared in a scope by one binding only means that binding there. -/
theorem lookup?_of_only {c binding : Cursor} (hapart : unit.TellsApart scope)
    (hc : c ∈ unit.cursors) (hdeclares : c.Declares scope binding)
    (honly : ∀ c ∈ unit.cursors, ∀ other, c.Declares scope other → other.text = binding.text →
      other = binding) :
    (ofUnit unit).lookup? scope binding.text = some binding := by
  cases hfound : (ofUnit unit).lookup? scope binding.text with
  | none =>
      have hnot := (lookup?_eq_none_iff_of_apart hapart).mp hfound
      exact absurd ⟨c, hc, binding, hdeclares, rfl⟩ hnot
  | some other =>
      obtain ⟨d, hd, hkey, hname, rfl⟩ := of_lookup? hfound
      obtain ⟨e, he, hde⟩ := mem_declarations_ofUnit.mp hd
      obtain ⟨hother, htext⟩ := of_mem_declarations hde
      rw [hapart d.scope (scope_mem_cursors hd) hkey] at hother
      rw [honly e he d.binding hother (htext.symm.trans hname)]

/-- If no scope between a node and one of the scopes around it declares its name, the name is looked
up in that scope first, then further out. -/
theorem declarationOf?_eq_or (hapart : unit.ScopesApart) (hn : n ∈ unit.cursors)
    (hfree : (ofUnit unit).isBinding n = false) (haround : owner ∈ n.lineage)
    (howner : owner.kind.isScope = true)
    (hbetween : ∀ scope ∈ n.lineage, scope.kind.isScope = true → owner ∈ scope.lineage →
      ¬ unit.Declared scope n.text) :
    (ofUnit unit).declarationOf? n = ((ofUnit unit).lookup? owner n.text).or
      (owner.scopes.findSome? fun scope => (ofUnit unit).lookup? scope n.text) := by
  obtain ⟨front, hsplit⟩ := scopes_eq_append haround howner
  have hnone : front.findSome? (fun scope => (ofUnit unit).lookup? scope n.text) = none := by
    apply List.findSome?_eq_none_iff.mpr
    intro scope hscope
    obtain ⟨hmem, hinside⟩ := (mem_front_iff hsplit).mp hscope
    obtain ⟨habove, hkind⟩ := mem_scopes.mp hmem
    apply (lookup?_eq_none_iff_of_apart (hapart.of_mem_lineage hn habove hkind)).mpr
    exact hbetween scope habove hkind hinside
  rw [declarationOf?_of_free hfree, hsplit, List.findSome?_append, hnone, List.findSome?_cons]
  cases (ofUnit unit).lookup? owner n.text <;> rfl

end ScopeIndex

/-! ## One scope for every name -/

/-- What the index of a file relies on, with or without syntax errors in the file: identities tell
scopes apart from other named nodes and declared names from all other nodes, and a list of
parameters is what the grammar calls one. -/
structure SourceUnit.Indexable (unit : SourceUnit) : Prop where
  scopes : unit.ScopesApart
  names : ∀ d ∈ (ScopeIndex.ofUnit unit).declarations, ∀ c ∈ unit.places,
    c.key = d.binding.key → c = d.binding
  parameters : ∀ c ∈ unit.places, c.label.field = some .parameters →
    c.kind = .other "formal_parameters"

namespace SourceUnit.Indexable

variable {unit : SourceUnit} {c scope binding : Cursor}

theorem parameters_not_scope (h : unit.Indexable) :
    ∀ c ∈ unit.places, c.label.field = some .parameters → c.kind.isScope = false := by
  intro c hc hfield
  rw [h.parameters c hc hfield]
  rfl

theorem declaringScope?_eq (h : unit.Indexable) (hc : c ∈ unit.cursors)
    (hdeclares : c.Declares scope binding) : binding.declaringScope? = some scope :=
  ScopeIndex.declaringScope?_eq_scope h.parameters_not_scope
    (ScopeIndex.mem_declarations_ofUnit.mpr ⟨c, hc, hdeclares.mem_declarations⟩)

theorem owner?_eq (h : unit.Indexable) (hc : c ∈ unit.cursors)
    (hdeclares : c.Declares scope binding) :
    (ScopeIndex.ofUnit unit).owner? binding = some scope := by
  have hd := ScopeIndex.mem_declarations_ofUnit.mpr ⟨c, hc, hdeclares.mem_declarations⟩
  refine ScopeIndex.owner?_eq_scope h.parameters_not_scope hd fun e he hkey => ?_
  exact h.names _ hd e.binding (mem_unit_places.mpr (ScopeIndex.binding_in he)) hkey

end SourceUnit.Indexable

/-! ## Parameters -/

namespace Cursor

variable {function : Cursor} {name : Text}

/-- The name of a function expression, which is declared inside the function. -/
def innerName? (function : Cursor) : Option Cursor :=
  if function.kind.isNamedFunctionExpression then function.child? .name else none

theorem child?_of_innerName? {name : Cursor} (h : name ∈ function.innerName?) :
    function.child? .name = some name := by
  rw [Option.mem_def, innerName?, Option.ite_none_right_eq_some] at h
  exact h.2

theorem find?_all_self (scope : Cursor) (bindings : List Cursor) (name : Text) :
    (Declaration.all (some scope) bindings).find? (Declaration.isOf scope name) =
      (bindings.find? fun binding => decide (binding.text = name)).map (Declaration.of scope) := by
  rw [Declaration.all, List.find?_map]
  congr 2
  funext binding
  exact congrArg (· && decide (binding.text = name)) (decide_eq_true rfl)

theorem find?_all_enclosingScope? (c : Cursor) (bindings : List Cursor) (name : Text) :
    (Declaration.all c.enclosingScope? bindings).find? (Declaration.isOf c name) = none := by
  apply List.find?_eq_none.mpr
  intro d hd htest
  obtain ⟨owner, binding, howner, _, rfl⟩ := mem_all.mp hd
  obtain ⟨rfl, _⟩ := ScopeIndex.isOf_iff.mp htest
  have hdepth := depth_lt_of_mem_lineage (mem_lineage_of_ancestor? howner)
  exact Nat.lt_irrefl _ hdepth

/-- In itself a function declares its name, if it is an expression, and then its parameters. -/
theorem find?_declarations_of_isFunction (hkind : function.kind.isFunction = true) :
    function.declarations.find? (Declaration.isOf function name) =
      ((function.innerName?.toList ++ function.parameterBindings).find? fun binding =>
        decide (binding.text = name)).map (Declaration.of function) := by
  have hnone := find?_all_enclosingScope? function (function.child? .name).toList name
  have hself := fun bindings => find?_all_self function bindings name
  unfold declarations innerName?
  cases hfunction : function.kind with
  | functionDeclaration | generatorFunctionDeclaration =>
      simp [Kind.isNamedFunctionExpression, hnone, hself]
  | functionExpression | function | generatorFunction =>
      simp [Kind.isNamedFunctionExpression, hself, Option.map_or]
  | arrowFunction | methodDefinition => simp [Kind.isNamedFunctionExpression, hself]
  | _ => simp [hfunction, Kind.isFunction] at hkind

end Cursor

namespace ScopeIndex

variable {unit : SourceUnit} {function parameter name n : Cursor}

/-- What a function declares at its own node under a name is what the name means in its scope. -/
theorem lookup?_of_isFunction (hapart : unit.TellsApart function)
    (hmem : function ∈ unit.cursors) (hkind : function.kind.isFunction = true) {text : Text}
    {binding : Cursor}
    (h : (function.innerName?.toList ++ function.parameterBindings).find?
      (fun binding => decide (binding.text = text)) = some binding) :
    (ofUnit unit).lookup? function text = some binding := by
  apply lookup?_of_own hapart hmem (d := Declaration.of function binding)
  rw [find?_declarations_of_isFunction hkind, h]
  rfl

theorem find?_parameterBindings (hparameter : parameter ∈ function.parameterBindings)
    (honly : ∀ other ∈ function.parameterBindings, other.text = parameter.text →
      other = parameter) :
    function.parameterBindings.find? (fun binding => decide (binding.text = parameter.text)) =
      some parameter := by
  cases hfound : function.parameterBindings.find? fun binding =>
      decide (binding.text = parameter.text) with
  | none =>
      have hmissed := List.find?_eq_none.mp hfound parameter hparameter
      simp at hmissed
  | some other =>
      have htest := List.find?_some hfound
      rw [honly other (List.mem_of_find?_eq_some hfound) (of_decide_eq_true htest)]

/-- A parameter that has its name to itself is what the name means in the whole function, as far as
no scope between declares the name, if and only if the function is no expression called like the
parameter.  In such an expression the name means the function. -/
theorem declarationOf?_eq_parameter_iff (unit : SourceUnit) (function parameter n : Cursor)
    (hapart : unit.ScopesApart) (hkind : function.kind.isFunction = true)
    (hparameter : parameter ∈ function.parameterBindings)
    (honly : ∀ other ∈ function.parameterBindings, other.text = parameter.text →
      other = parameter)
    (hn : n ∈ unit.cursors) (hfree : (ofUnit unit).isBinding n = false)
    (htext : n.text = parameter.text) (hinside : function ∈ n.lineage)
    (hbetween : ∀ scope ∈ n.lineage, scope.kind.isScope = true → function ∈ scope.lineage →
      ¬ unit.Declared scope n.text) :
    ((ofUnit unit).declarationOf? n = some parameter ↔
        ∀ name ∈ function.innerName?, name.text ≠ parameter.text) ∧
      ∀ name ∈ function.innerName?, name.text = parameter.text →
        (ofUnit unit).declarationOf? n = some name := by
  have hscope := isScope_of_isFunction hkind
  have hmem := mem_cursors_of_mem_lineage hn hinside
  have hfound : ∀ binding, (function.innerName?.toList ++ function.parameterBindings).find?
      (fun binding => decide (binding.text = n.text)) = some binding →
      (ofUnit unit).declarationOf? n = some binding := by
    intro binding hbinding
    rw [declarationOf?_eq_or hapart hn hfree hinside hscope hbetween,
      lookup?_of_isFunction (hapart function hmem hscope) hmem hkind hbinding]
    rfl
  have hname : ∀ name ∈ function.innerName?, name.text = parameter.text →
      (ofUnit unit).declarationOf? n = some name := by
    intro name hname hsame
    apply hfound
    rw [Option.mem_def] at hname
    simp [hname, htext, hsame]
  refine ⟨⟨fun hparameterFound name hinner hsame => ?_, fun hothers => ?_⟩, hname⟩
  · -- the name of a function is none of its parameters
    have heq := Option.some.inj ((hname name hinner hsame).symm.trans hparameterFound)
    apply name_not_mem_parameterBindings (child?_of_innerName? hinner)
    exact heq ▸ hparameter
  · apply hfound
    have hnone : function.innerName?.toList.find? (fun binding => decide (binding.text = n.text)) =
        none := by
      apply List.find?_eq_none.mpr
      intro name hinner htest
      apply hothers name (Option.mem_toList.mp hinner)
      rw [← htext]
      exact of_decide_eq_true htest
    rw [List.find?_append, hnone, htext, find?_parameterBindings hparameter honly]
    rfl

/-- The function `function t(t) { var t; t; }` behind one character. -/
def calledLikeParameter (kind : Kind) : Node :=
  let node (kind : Kind) (start stop : Nat) (field : Option Field) (children : List Node) : Node :=
    .mk ⟨kind, true, false, start, stop, ⟨0, start⟩, field⟩ children
  node kind 1 28 none
    [node .identifier 10 11 (some .name) [],
      node (.other "formal_parameters") 11 14 (some .parameters)
        [node .requiredParameter 12 13 none [node .identifier 12 13 (some .pattern) []]],
      node .statementBlock 15 28 (some .body)
        [node .variableDeclaration 17 23 none
          [node .variableDeclarator 21 22 none [node .identifier 21 22 (some .name) []]],
          node (.other "expression_statement") 24 26 none [node .identifier 24 25 none []]]]

/-- The file with the function as a declaration. -/
def declaredLikeParameter : SourceUnit where
  path := "t.ts"
  source := " function t(t) { var t; t; }".toUTF8.data
  root := .mk ⟨.program, true, false, 0, 28, ⟨0, 0⟩, none⟩
    [calledLikeParameter .functionDeclaration]

/-- The `t` in the declaration is the parameter: not the `var`, which the function owns too, and not
the function, whose name belongs to the file. -/
theorem declarationOf?_eq_parameter_declared :
    declaredLikeParameter.ScopesApart ∧ ∃ function ∈ declaredLikeParameter.cursors,
      function.kind = .functionDeclaration ∧ ∃ parameter ∈ function.parameterBindings,
        ∃ n ∈ declaredLikeParameter.cursors, n.label.start = 24 ∧
          (ofUnit declaredLikeParameter).declarationOf? n = some parameter := by
  have hapart : declaredLikeParameter.ScopesApart := by decide
  obtain ⟨function, hmem, hkind, parameter, hparameter, honly, n, hn, hstart, hfree, htext, hinside,
      hbetween⟩ : ∃ function ∈ declaredLikeParameter.cursors,
      function.kind = .functionDeclaration ∧ ∃ parameter ∈ function.parameterBindings,
        (∀ other ∈ function.parameterBindings, other.text = parameter.text → other = parameter) ∧
          ∃ n ∈ declaredLikeParameter.cursors, n.label.start = 24 ∧
            (ofUnit declaredLikeParameter).isBinding n = false ∧ n.text = parameter.text ∧
              function ∈ n.lineage ∧ ∀ scope ∈ n.lineage, scope.kind.isScope = true →
                function ∈ scope.lineage → ¬ declaredLikeParameter.Declared scope n.text := by
    decide
  refine ⟨hapart, function, hmem, hkind, parameter, hparameter, n, hn, hstart, ?_⟩
  have hmeans := declarationOf?_eq_parameter_iff _ function parameter n hapart (by rw [hkind]; rfl)
    hparameter honly hn hfree htext hinside hbetween
  apply hmeans.1.mpr
  intro name hname
  simp [innerName?, hkind, Kind.isNamedFunctionExpression] at hname

/-- The file with the function as an expression. -/
def expressionLikeParameter : SourceUnit where
  path := "t.ts"
  source := "(function t(t) { var t; t; });".toUTF8.data
  root := .mk ⟨.program, true, false, 0, 30, ⟨0, 0⟩, none⟩
    [.mk ⟨.other "expression_statement", true, false, 0, 30, ⟨0, 0⟩, none⟩
      [.mk ⟨.other "parenthesized_expression", true, false, 0, 29, ⟨0, 0⟩, none⟩
        [calledLikeParameter .functionExpression]]]

/-- The `t` in the expression is not the parameter. -/
theorem declarationOf?_ne_parameter_expression :
    expressionLikeParameter.ScopesApart ∧ ∃ function ∈ expressionLikeParameter.cursors,
      function.kind.isFunction = true ∧ ∃ parameter ∈ function.parameterBindings,
        (∀ other ∈ function.parameterBindings, other.text = parameter.text → other = parameter) ∧
          ∃ n ∈ expressionLikeParameter.cursors, n.label.start = 24 ∧
            (ofUnit expressionLikeParameter).isBinding n = false ∧ n.text = parameter.text ∧
              function ∈ n.lineage ∧
                (∀ scope ∈ n.lineage, scope.kind.isScope = true → function ∈ scope.lineage →
                  ¬ expressionLikeParameter.Declared scope n.text) ∧
                (ofUnit expressionLikeParameter).declarationOf? n ≠ some parameter := by
  decide

end ScopeIndex

end MessageKeys.Syntax
