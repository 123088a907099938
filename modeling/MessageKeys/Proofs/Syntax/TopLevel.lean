import MessageKeys.Proofs.Syntax.Shadowing

/-!
# Names at the top of a file

Imports and exports are matters of the top of a file: an import declares its name there, and an
exported name is looked up from there.  This file says when a name means there what it means
inside.

* A name that no inner scope declares means what it means at the top, provided that the file is a
  program (`declarationOf?_of_unshadowed`).  Of a file that is too broken for that the top is no
  scope, and look-up does not get there.
* A name that the top declares once means that declaration (`programBinding?_of_declaresOnce`).  If
  it is an import, no other import has the name (`import_eq_of_declaresOnce`).

A callee and a name in an export list are no declarations themselves.  That is a matter of the
grammar, which `SourceUnit.Grammatical` says as far as it is needed: declared names have parents of
certain kinds (`Declares.owner`).
-/

namespace MessageKeys.Syntax

open Cursor

/-- What the grammar says of declarations and of the nodes that name things, besides what the scope
index relies on.  The file need not be a program: the parser may have given up on it.  But of the
scopes only a program stands at the top. -/
structure SourceUnit.Grammatical (unit : SourceUnit) : Prop extends unit.WellParsed where
  top_scope : unit.top.kind.isScope = true → unit.top.kind = .program
  parameters_kind : ∀ c ∈ unit.places, c.label.field = some .parameters →
    c.kind = .other "formal_parameters"
  identifier_named : ∀ c ∈ unit.places, c.kind.isReference = true → c.label.named = true
  function_name : ∀ c ∈ unit.places, c.kind.isFunctionDeclaration = true →
    ∀ name ∈ c.child? .name, name.kind = .identifier
  class_name : ∀ c ∈ unit.places, c.kind = .classDeclaration →
    ∀ name ∈ c.child? .name, name.kind = .other "type_identifier"
  declarator_name : ∀ c ∈ unit.places, c.kind = .variableDeclarator →
    ∀ name ∈ c.child? .name,
      name.kind = .identifier ∨ name.kind = .objectPattern ∨ name.kind = .arrayPattern

/-- The kinds of nodes that have a declared name, or a pattern of declared names, directly below
them. -/
def Kind.isOwner : Kind → Bool
  | variableDeclarator | classDeclaration | catchClause | forInStatement | importClause
  | namespaceImport | importSpecifier => true
  | other name => decide (name = Text.ofString "formal_parameters")
  | kind => kind.isFunction

namespace Cursor

/-! ## Where declared names stand -/

/-- The parent of a name in a pattern is a pattern or what the pattern belongs to. -/
theorem parent?_of_patternOwner? {c owner : Cursor} (h : c.patternOwner? = some owner) :
    ∃ parent, c.parent? = some parent ∧ (parent.kind.isPattern = true ∨ parent = owner) := by
  cases hparent : c.parent? with
  | none =>
      have hmem := mem_lineage_of_ancestor? h
      rw [parent?_eq_head?, List.head?_eq_none_iff] at hparent
      rw [hparent] at hmem
      simp at hmem
  | some parent =>
      rw [patternOwner?_of_parent? hparent] at h
      refine ⟨parent, rfl, ?_⟩
      split at h
      · rename_i hpattern
        exact Or.inl hpattern
      · exact Or.inr (Option.some.inj h)

theorem isOwner_of_isFunction {kind : Kind} (h : kind.isFunction = true) :
    kind.isOwner = true := by
  cases kind <;> simp_all [Kind.isFunction, Kind.isOwner]

theorem isPattern_of_isOwner {kind : Kind} (h : kind.isOwner = true) : kind.isPattern = false := by
  cases kind <;> simp_all [Kind.isFunction, Kind.isOwner, Kind.isPattern]

/-- The pattern of a declared name belongs to a node of one of a few kinds. -/
theorem Declares.owner {c scope binding : Cursor} (h : Declares c scope binding)
    (hlist : ∀ list, c.child? .parameters = some list → list.kind = .other "formal_parameters") :
    ∃ owner, binding.patternOwner? = some owner ∧ owner.kind.isOwner = true := by
  have hpattern : ∀ {field : Field}, c.kind.isOwner = true → binding ∈ c.bindingsOf field →
      ∃ owner, binding.patternOwner? = some owner ∧ owner.kind.isOwner = true := by
    intro field hkind hbinding
    obtain ⟨pattern, hfound, hmem⟩ := mem_bindingsOf.mp hbinding
    have howner := patternOwner?_of_mem_children (mem_children_of_child? hfound)
      (isPattern_of_isOwner hkind)
    exact ⟨c, (of_mem_patternBindings hmem).2.trans howner, hkind⟩
  have hname : c.kind.isOwner = true → c.child? .name = some binding →
      ∃ owner, binding.patternOwner? = some owner ∧ owner.kind.isOwner = true := fun hkind hname =>
    ⟨c, patternOwner?_of_mem_children (mem_children_of_child? hname) (isPattern_of_isOwner hkind),
      hkind⟩
  cases h with
  | declarator hkind _ hbinding => exact hpattern (by rw [hkind]; rfl) hbinding
  | name hkind _ hfound =>
      refine hname ?_ hfound
      revert hkind
      cases c.kind <;> simp [Kind.isFunctionDeclaration, Kind.isOwner, Kind.isFunction]
  | innerName hkind hfound =>
      refine hname ?_ hfound
      revert hkind
      cases c.kind <;> simp [Kind.isNamedFunctionExpression, Kind.isOwner, Kind.isFunction]
  | parameter hkind hbinding =>
      have hfunction := isOwner_of_isFunction hkind
      obtain ⟨parameter, hparameter, _, howner⟩ := of_mem_parameterBindings hbinding
      rcases of_mem_functionParameters hparameter with hsingle | ⟨list, hfound, hinList⟩
      · have hparent := patternOwner?_of_mem_children (mem_children_of_child? hsingle)
          (isPattern_of_isOwner hfunction)
        exact ⟨c, howner.trans hparent, hfunction⟩
      · have hlistKind : list.kind.isOwner = true := by
          rw [hlist list hfound]
          rfl
        have hparent := patternOwner?_of_mem_children (mem_namedChildren.mp hinList).1
          (isPattern_of_isOwner hlistKind)
        exact ⟨list, howner.trans hparent, hlistKind⟩
  | caught hkind hbinding => exact hpattern (by rw [hkind]; rfl) hbinding
  | loop hkind _ hbinding => exact hpattern (by rw [hkind]; rfl) hbinding
  | imported hkind hfound =>
      obtain ⟨_, part, _, hmem, _, _, hpart⟩ := of_mem_statementBindings hkind hfound
      have hpartKind : part.kind.isOwner = true := by
        rcases hpart with hpart | hpart | hpart <;> rw [hpart] <;> rfl
      exact ⟨part, patternOwner?_of_mem_children hmem (isPattern_of_isOwner hpartKind), hpartKind⟩

end Cursor

namespace SourceUnit.Grammatical

variable {unit : SourceUnit} {n parent : Cursor}

theorem isScope_top_iff (h : unit.Grammatical) :
    unit.top.kind.isScope = true ↔ unit.top.kind = .program := by
  refine ⟨h.top_scope, fun hprogram => ?_⟩
  rw [hprogram]
  rfl

theorem mem_cursors (h : unit.Grammatical) (hn : In unit n) (hkind : n.kind.isReference = true) :
    n ∈ unit.cursors :=
  ScopeIndex.mem_cursors_of_named h.toWellParsed hn
    (h.identifier_named n (mem_unit_places.mpr hn) hkind)

/-- A node whose parent neither is a pattern nor declares names is no declared name. -/
theorem isBinding_eq_false (h : unit.Grammatical) (hn : n ∈ unit.cursors)
    (hparent : n.parent? = some parent) (hpattern : parent.kind.isPattern = false)
    (howner : parent.kind.isOwner = false) : (ScopeIndex.ofUnit unit).isBinding n = false := by
  rw [← Bool.not_eq_true]
  intro hbinding
  obtain ⟨d, hd, hkey⟩ := ScopeIndex.isBinding_iff.mp hbinding
  obtain rfl : d.binding = n := ScopeIndex.cursor_eq_of_key_eq h.distinct
    (ScopeIndex.binding_mem_cursors h.toWellParsed hd) hn hkey
  obtain ⟨c, hc, hdc⟩ := ScopeIndex.mem_declarations_ofUnit.mp hd
  obtain ⟨owner, hfound, hkind⟩ := (of_mem_declarations hdc).1.owner fun list hlist =>
    h.parameters_kind list (mem_unit_places.mpr ((In.of_mem_cursors hc).child? hlist))
      (field_of_child? hlist)
  obtain ⟨above, habove, hcases⟩ := parent?_of_patternOwner? hfound
  obtain rfl := Option.some.inj (hparent.symm.trans habove)
  rcases hcases with hcase | rfl
  · exact absurd (hcase.symm.trans hpattern) (by simp)
  · exact absurd (hkind.symm.trans howner) (by simp)

end SourceUnit.Grammatical

/-! ## What a name means at the top -/

namespace SourceUnit

/-- No scope around the node but the file itself declares its name. -/
def Unshadowed (unit : SourceUnit) (n : Cursor) : Prop :=
  ∀ scope ∈ n.lineage, scope.kind.isScope = true → unit.Declared scope n.text → scope = unit.top

/-- No scope but the file itself is around the node. -/
def AtTop (unit : SourceUnit) (n : Cursor) : Prop :=
  ∀ scope ∈ n.lineage, scope.kind.isScope = true → scope = unit.top

instance (unit : SourceUnit) (n : Cursor) : Decidable (unit.AtTop n) :=
  inferInstanceAs (Decidable (∀ _ ∈ _, _))

/-- The top of the file declares the name once. -/
def DeclaresOnce (unit : SourceUnit) (name : Text) : Prop :=
  ((ScopeIndex.ofUnit unit).declarations.countP fun d =>
    decide (d.scope = unit.top ∧ d.name = name)) = 1

instance (unit : SourceUnit) (name : Text) : Decidable (unit.DeclaresOnce name) :=
  inferInstanceAs (Decidable (_ = _))

end SourceUnit

/-- Of what a list holds once there is one. -/
theorem eq_of_countP_eq_one {α : Type} {p : α → Bool} {l : List α} (h : l.countP p = 1) {a b : α}
    (ha : a ∈ l) (hb : b ∈ l) (hpa : p a = true) (hpb : p b = true) : a = b := by
  rw [List.countP_eq_length_filter, List.length_eq_one_iff] at h
  obtain ⟨only, honly⟩ := h
  have hmem : ∀ {c : α}, c ∈ l → p c = true → c = only := fun hc hpc => by
    have hfiltered := List.mem_filter.mpr ⟨hc, hpc⟩
    rw [honly] at hfiltered
    exact List.mem_singleton.mp hfiltered
  rw [hmem ha hpa, hmem hb hpb]

/-- A search in which only one element can succeed gives what that element gives. -/
theorem findSome?_eq_of_forall {α β : Type} {f : α → Option β} {l : List α} {a : α} (ha : a ∈ l)
    (h : ∀ b ∈ l, b = a ∨ f b = none) : l.findSome? f = f a := by
  cases hfa : f a with
  | none =>
      refine List.findSome?_eq_none_iff.mpr fun b hb => ?_
      rcases h b hb with rfl | hb
      · exact hfa
      · exact hb
  | some value =>
      cases hfound : l.findSome? f with
      | none => exact absurd (List.findSome?_eq_none_iff.mp hfound a ha) (by simp [hfa])
      | some other =>
          obtain ⟨b, hb, hfb⟩ := List.exists_of_findSome?_eq_some hfound
          rcases h b hb with rfl | hnone
          · rw [← hfb, hfa]
          · rw [hnone] at hfb
            contradiction

theorem Cursor.In.top_mem_lineage {unit : SourceUnit} {n parent : Cursor} (h : In unit n)
    (hparent : n.parent? = some parent) : unit.top ∈ n.lineage := by
  rcases h.eq_or_mem_lineage with rfl | hmem
  · simp [parent?, SourceUnit.top] at hparent
  · exact hmem

namespace SourceUnit.AtTop

variable {unit : SourceUnit} {n d : Cursor}

theorem of_mem_top (h : n ∈ unit.top.children) : unit.AtTop n := by
  obtain ⟨node, _, rfl⟩ := mem_children.mp h
  intro scope hmem _
  simpa using hmem

theorem of_mem_children (h : unit.AtTop n) (hkind : n.kind.isScope = false) (hd : d ∈ n.children) :
    unit.AtTop d := by
  obtain ⟨node, _, rfl⟩ := mem_children.mp hd
  intro scope hmem hscope
  rw [lineage_below] at hmem
  rcases List.mem_cons.mp hmem with rfl | hmem
  · exact absurd (hscope.symm.trans hkind) (by simp)
  · exact h scope hmem hscope

theorem unshadowed (h : unit.AtTop n) : unit.Unshadowed n :=
  fun scope hmem hkind _ => h scope hmem hkind

/-- The nearest scope around a node at the top is the file. -/
theorem ancestor?_eq (h : unit.AtTop n) (habove : unit.top ∈ n.lineage) {p : Kind → Bool}
    (htop : p unit.top.kind = true) (hp : ∀ kind, p kind = true → kind.isScope = true) :
    n.ancestor? p = some unit.top := by
  rw [ancestor?_eq_find?]
  cases hfound : n.lineage.find? fun a => p a.kind with
  | none => exact absurd htop (by simpa using List.find?_eq_none.mp hfound unit.top habove)
  | some scope =>
      have hscope := List.find?_some hfound
      rw [h scope (List.mem_of_find?_eq_some hfound) (hp _ hscope)]

end SourceUnit.AtTop

namespace ScopeIndex

variable {unit : SourceUnit} {n : Cursor} {name : Text}

/-- A name that no inner scope declares means what it means at the top, if the top is a scope, and
nothing otherwise. -/
theorem declarationOf?_of_unshadowed (hdistinct : (unit.cursors.map Cursor.key).Nodup)
    (hn : n ∈ unit.cursors) (habove : unit.top ∈ n.lineage)
    (hfree : (ofUnit unit).isBinding n = false) (h : unit.Unshadowed n) :
    (ofUnit unit).declarationOf? n =
      if unit.top.kind.isScope then (ofUnit unit).programBinding? n.text else none := by
  have hinner : ∀ scope ∈ n.scopes,
      scope = unit.top ∨ (ofUnit unit).lookup? scope n.text = none := by
    intro scope hscope
    obtain ⟨hmem, hkind⟩ := mem_scopes.mp hscope
    by_cases hdeclared : unit.Declared scope n.text
    · exact Or.inl (h scope hmem hkind hdeclared)
    · exact Or.inr ((lookup?_eq_none_iff hdistinct (mem_cursors_of_mem_scopes hn hscope)).mpr
        hdeclared)
  rw [declarationOf?_of_free hfree]
  split
  · rename_i htop
    exact findSome?_eq_of_forall (mem_scopes.mpr ⟨habove, htop⟩) hinner
  · rename_i htop
    refine List.findSome?_eq_none_iff.mpr fun scope hscope => (hinner scope hscope).resolve_left ?_
    rintro rfl
    exact htop (mem_scopes.mp hscope).2

/-- Conversely, a name that means a declaration of the top is declared in no inner scope. -/
theorem unshadowed_of_declarationOf? (h : unit.WellParsed) (hn : n ∈ unit.cursors)
    (hfree : (ofUnit unit).isBinding n = false) {d : Declaration}
    (hd : d ∈ (ofUnit unit).declarations) (hscope : d.scope = unit.top)
    (hdeclared : (ofUnit unit).declarationOf? n = some d.binding) : unit.Unshadowed n := by
  obtain ⟨owner, hnearest⟩ := (declarationOf?_eq_some_iff h.distinct hn hfree).mp hdeclared
  obtain ⟨front, back, hsplit, _⟩ := hnearest.first
  have howner : owner = unit.top := by
    have hmem : Declaration.of owner d.binding ∈ (ofUnit unit).declarations := by simp [hsplit]
    rw [← hscope]
    exact scope_eq_of_binding_eq h hmem hd rfl
  intro scope hmem hkind hname
  by_contra hne
  -- a scope around the node that is not the file has the file around it
  refine hnearest.unshadowed scope hmem hkind ?_ hname
  have hin : In unit scope := (In.of_mem_cursors hn).of_mem_lineage hmem
  rcases hin.eq_or_mem_lineage with htop | htop
  · exact absurd htop hne
  · exact howner ▸ htop

theorem mem_cursors_top (unit : SourceUnit) : unit.top ∈ unit.cursors :=
  mem_unit_cursors.mpr .here

theorem programBinding?_of_declaresOnce (hdistinct : (unit.cursors.map Cursor.key).Nodup)
    (h : unit.DeclaresOnce name) {d : Declaration} (hd : d ∈ (ofUnit unit).declarations)
    (hscope : d.scope = unit.top) (hname : d.name = name) :
    (ofUnit unit).programBinding? name = some d.binding := by
  cases hfound : (ofUnit unit).programBinding? name with
  | none =>
      exact absurd ⟨d, hd, hscope, hname⟩ (mt declared_iff.mpr
        ((lookup?_eq_none_iff hdistinct (mem_cursors_top unit)).mp hfound))
  | some binding =>
      obtain ⟨first, hmem, hkey, hfirst, rfl⟩ := of_lookup? hfound
      have htop : first.scope = unit.top := cursor_eq_of_key_eq hdistinct (scope_mem_cursors hmem)
        (mem_cursors_top unit) hkey
      rw [eq_of_countP_eq_one h hmem hd (by simp [htop, hfirst]) (by simp [hscope, hname])]

end ScopeIndex

/-- A name in a place where nothing is declared, and that no inner scope declares, means what it
means at the top, if the file is a program, and nothing otherwise. -/
theorem SourceUnit.Grammatical.declarationOf?_eq {unit : SourceUnit} (h : unit.Grammatical)
    {n parent : Cursor} (hn : In unit n) (hkind : n.kind.isReference = true)
    (hparent : n.parent? = some parent) (hpattern : parent.kind.isPattern = false)
    (howner : parent.kind.isOwner = false) (hshadow : unit.Unshadowed n) :
    (ScopeIndex.ofUnit unit).declarationOf? n =
      if unit.top.kind = .program then (ScopeIndex.ofUnit unit).programBinding? n.text
      else none := by
  have hmem := h.mem_cursors hn hkind
  rw [ScopeIndex.declarationOf?_of_unshadowed h.distinct hmem (hn.top_mem_lineage hparent)
    (h.isBinding_eq_false hmem hparent hpattern howner) hshadow]
  simp only [h.isScope_top_iff]

/-! ## Imports -/

namespace SourceUnit

variable {unit : SourceUnit} {found other : ImportBinding}

theorem mem_imports :
    found ∈ unit.imports ↔ ∃ statement ∈ unit.top.namedChildren,
      statement.kind = .importStatement ∧ found ∈ statement.statementBindings := by
  simp [imports, List.mem_flatMap, List.mem_filter, and_assoc]

theorem namedChildren_sublist_walk (c : Cursor) : c.namedChildren.Sublist c.walk := by
  rw [walk_eq_flatMap]
  refine List.Sublist.cons _ ?_
  calc c.namedChildren = c.namedChildren.flatMap fun child => [child] :=
        (List.flatMap_singleton' _).symm
    List.Sublist _ (c.namedChildren.flatMap walk) :=
      List.Sublist.flatMap_right _ fun child _ => by
        rw [walk_eq_flatMap]
        exact List.singleton_sublist.mpr List.mem_cons_self

/-- The imports are among the declarations at the top of the file, in order. -/
theorem imports_sublist_declarations (unit : SourceUnit) :
    (unit.imports.map fun found => Declaration.of unit.top found.node).Sublist
      (ScopeIndex.ofUnit unit).declarations := by
  have hstatement : ∀ statement ∈ unit.top.namedChildren.filter
        fun statement => decide (statement.kind = .importStatement),
      (statement.statementBindings.map fun found => Declaration.of unit.top found.node) =
        statement.declarations := by
    intro statement hmem
    obtain ⟨hchild, hkind⟩ := List.mem_filter.mp hmem
    have hunit : statement.unit = unit := (In.top.of_mem_namedChildren hchild).unit_eq
    unfold Cursor.declarations
    rw [of_decide_eq_true hkind, hunit]
    simp [Declaration.all]
  rw [imports, List.map_flatMap, List.flatMap_congr hstatement]
  exact (List.filter_sublist.trans (namedChildren_sublist_walk unit.top)).flatMap _

theorem localName_eq_text (h : found ∈ unit.imports) : found.localName = found.node.text := by
  obtain ⟨statement, _, _, h⟩ := mem_imports.mp h
  unfold statementBindings at h
  split at h
  · obtain ⟨clause, _, h⟩ := List.mem_flatMap.mp h
    obtain ⟨part, _, h⟩ := List.mem_flatMap.mp h
    unfold partBindings at h
    split at h
    · rw [List.mem_singleton.mp h]
    · obtain ⟨name, _, rfl⟩ := List.mem_map.mp h
      rfl
    · obtain ⟨specifier, _, h⟩ := List.mem_filterMap.mp h
      unfold specifierBinding? at h
      dsimp only at h
      split at h
      · rw [← Option.some.inj h]
      · simp at h
    · simp at h
  · simp at h

/-- An imported name is declared at the top of the file. -/
theorem mem_declarations_of_mem_imports (h : found ∈ unit.imports) :
    Declaration.of unit.top found.node ∈ (ScopeIndex.ofUnit unit).declarations :=
  (imports_sublist_declarations unit).subset (List.mem_map_of_mem h)

/-- Of the imports with a name that the file declares once there is one. -/
theorem import_eq_of_declaresOnce (hfound : found ∈ unit.imports) (hother : other ∈ unit.imports)
    (hname : other.localName = found.localName) (h : unit.DeclaresOnce found.localName) :
    other = found := by
  have hcount : unit.imports.countP (fun imp => decide (imp.localName = found.localName)) ≤ 1 :=
    calc unit.imports.countP (fun imp => decide (imp.localName = found.localName))
        = (unit.imports.map fun imp => Declaration.of unit.top imp.node).countP
            fun d => decide (d.scope = unit.top ∧ d.name = found.localName) := by
          rw [List.countP_map]
          refine List.countP_congr fun imp himp => ?_
          simp [Declaration.of, localName_eq_text himp]
      _ ≤ (ScopeIndex.ofUnit unit).declarations.countP
            fun d => decide (d.scope = unit.top ∧ d.name = found.localName) :=
          (imports_sublist_declarations unit).countP_le
      _ = 1 := h
  have hpos : 0 < unit.imports.countP (fun imp => decide (imp.localName = found.localName)) :=
    List.countP_pos_iff.mpr ⟨found, hfound, by simp⟩
  have hone : unit.imports.countP (fun imp => decide (imp.localName = found.localName)) = 1 := by
    omega
  exact eq_of_countP_eq_one hone hother hfound (by simp [hname]) (by simp)

/-- An imported name that the file declares once means the import. -/
theorem programBinding?_of_mem_imports (h : unit.WellParsed) (hfound : found ∈ unit.imports)
    (honce : unit.DeclaresOnce found.localName) :
    (ScopeIndex.ofUnit unit).programBinding? found.localName = some found.node :=
  ScopeIndex.programBinding?_of_declaresOnce h.distinct honce
    (mem_declarations_of_mem_imports hfound) rfl (localName_eq_text hfound).symm

theorem node_mem_cursors_of_mem_imports (h : unit.WellParsed) (hfound : found ∈ unit.imports) :
    found.node ∈ unit.cursors :=
  ScopeIndex.binding_mem_cursors h (mem_declarations_of_mem_imports hfound)

/-- An imported name stands directly in a part of an import statement. -/
theorem parent?_of_mem_imports (h : found ∈ unit.imports) :
    ∃ part, found.node.parent? = some part ∧
      (part.kind = .importClause ∨ part.kind = .namespaceImport ∨
        part.kind = .importSpecifier) := by
  obtain ⟨statement, _, hkind, hfound⟩ := mem_imports.mp h
  obtain ⟨_, part, _, hmem, _, _, hpart⟩ := of_mem_statementBindings hkind hfound
  exact ⟨part, parent?_of_mem_children hmem, hpart⟩

end SourceUnit

end MessageKeys.Syntax
