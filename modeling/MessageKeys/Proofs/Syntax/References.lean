import Mathlib.Data.List.Nodup
import MessageKeys.Proofs.Syntax.Declarations

/-!
# References and look-up agree

Two parts of the scope index answer what an identifier means.  Looking up an identifier goes
outwards through the scopes and takes the first declaration of its name; listing the
references of a binding goes inwards from the scope that was remembered for it.  This file
shows that both give the same relation on the whole file (`references_eq_filter_places`).

The argument has three steps.

* A name is declared in one scope only (`scope_eq_of_binding_eq`), so the scope remembered
  last is the one that look-up finds the name in.
* That scope is around every identifier that means the name, so the identifier is on the walk
  from the scope (`Refers.mem_walk_scope`).
* The walk from the scope is a contiguous part of the walk over the file, and since nodes have
  distinct identities no identifier is met outside that part.
-/

namespace MessageKeys.Syntax

open Cursor

/-- What the scope index relies on of a syntax tree: identities tell named nodes apart,
identifiers and tokens have nothing below them, a list of parameters opens no scope, and
what is declared is a named node. -/
structure SourceUnit.WellParsed (unit : SourceUnit) : Prop where
  distinct : (unit.cursors.map Cursor.key).Nodup
  identifier_leaf : ∀ c ∈ unit.places, c.kind.isReference = true → c.node.children = []
  token_leaf : ∀ c ∈ unit.places, c.label.named = false → c.node.children = []
  parameters_not_scope : ∀ c ∈ unit.places, c.label.field = some .parameters →
    c.kind.isScope = false
  binding_named : ∀ d ∈ (ScopeIndex.ofUnit unit).declarations, d.binding.label.named = true

namespace ScopeIndex

/-- The identifier `n` refers to the binding: it is no declared name itself, it is not part of
an import or export specifier, and its declaration is the binding. -/
structure Refers (index : ScopeIndex) (binding n : Cursor) : Prop where
  kind : n.kind = .identifier ∨ n.kind = .shorthandPropertyIdentifier
  free : index.isBinding n = false
  outside : ∀ parent, n.parent? = some parent →
    parent.kind ≠ .importSpecifier ∧ parent.kind ≠ .exportSpecifier
  declared : index.declarationOf? n = some binding

theorem isReference_iff {kind : Kind} :
    kind.isReference = true ↔ kind = .identifier ∨ kind = .shorthandPropertyIdentifier := by
  cases kind <;> simp [Kind.isReference]

theorem namesModuleMember_eq_false_iff {n : Cursor} :
    n.namesModuleMember = false ↔ ∀ parent, n.parent? = some parent →
      parent.kind ≠ .importSpecifier ∧ parent.kind ≠ .exportSpecifier := by
  unfold namesModuleMember
  cases n.parent? <;> simp

theorem refers_iff {index : ScopeIndex} {binding n : Cursor} :
    index.Refers binding n ↔ n.kind.isReference = true ∧ index.isBinding n = false ∧
      n.namesModuleMember = false ∧ index.declarationOf? n = some binding := by
  rw [isReference_iff, namesModuleMember_eq_false_iff]
  constructor
  · rintro ⟨hkind, hfree, houtside, hdeclared⟩
    exact ⟨hkind, hfree, houtside, hdeclared⟩
  · rintro ⟨hkind, hfree, houtside, hdeclared⟩
    exact ⟨hkind, hfree, houtside, hdeclared⟩

instance (index : ScopeIndex) (binding n : Cursor) : Decidable (index.Refers binding n) :=
  decidable_of_iff _ refers_iff.symm

/-! ## The declarations of a file -/

variable {unit : SourceUnit} {d : Declaration}

theorem mem_declarations_ofUnit :
    d ∈ (ofUnit unit).declarations ↔ ∃ c ∈ unit.cursors, d ∈ c.declarations :=
  List.mem_flatMap

theorem scope_mem_cursors (hd : d ∈ (ofUnit unit).declarations) : d.scope ∈ unit.cursors := by
  obtain ⟨c, hc, hdc⟩ := mem_declarations_ofUnit.mp hd
  rcases (of_mem_declarations hdc).1.scope_cases with hscope | hscope | hscope
  · exact hscope ▸ hc
  · exact mem_cursors_of_mem_lineage hc hscope
  · rw [hscope, (In.of_mem_cursors hc).unit_eq]
    exact mem_unit_cursors.mpr .here

theorem binding_in (hd : d ∈ (ofUnit unit).declarations) : In unit d.binding := by
  obtain ⟨c, hc, hdc⟩ := mem_declarations_ofUnit.mp hd
  exact (In.of_mem_cursors hc).beneath (of_mem_declarations hdc).1.beneath

theorem name_eq_text (hd : d ∈ (ofUnit unit).declarations) : d.name = d.binding.text := by
  obtain ⟨c, _, hdc⟩ := mem_declarations_ofUnit.mp hd
  exact (of_mem_declarations hdc).2

/-- The first declaration of a name in a scope is one of the declarations. -/
theorem of_lookup? {index : ScopeIndex} {scope binding : Cursor} {name : Text}
    (h : index.lookup? scope name = some binding) :
    ∃ d ∈ index.declarations, d.scope.key = scope.key ∧ d.name = name ∧ d.binding = binding := by
  obtain ⟨d, hfound, hbinding⟩ := Option.map_eq_some_iff.mp h
  have hmatch := List.find?_some hfound
  simp only [Bool.and_eq_true, decide_eq_true_eq] at hmatch
  exact ⟨d, List.mem_of_find?_eq_some hfound, hmatch.1, hmatch.2, hbinding⟩

/-- A name that is no binding means the declaration of its text in one of the scopes around
it. -/
theorem of_declarationOf? {index : ScopeIndex} {n binding : Cursor}
    (hfree : index.isBinding n = false) (h : index.declarationOf? n = some binding) :
    ∃ scope ∈ n.lineage, index.lookup? scope n.text = some binding := by
  unfold declarationOf? at h
  rw [hfree] at h
  obtain ⟨scope, hscope, hlookup⟩ := List.exists_of_findSome?_eq_some h
  rw [scopes, ancestors_eq_filter] at hscope
  exact ⟨scope, (List.mem_filter.mp hscope).1, hlookup⟩

theorem isBinding_iff {index : ScopeIndex} {c : Cursor} :
    index.isBinding c = true ↔ ∃ d ∈ index.declarations, d.binding.key = c.key := by
  simp [isBinding]

/-- The remembered scope of a binding comes from one of its declarations. -/
theorem exists_owner? {index : ScopeIndex} {binding : Cursor} (h : index.isBinding binding = true) :
    ∃ d ∈ index.declarations, d.binding.key = binding.key ∧
      index.owner? binding = some d.scope := by
  obtain ⟨d, hd, hkey⟩ := isBinding_iff.mp h
  unfold owner?
  cases hfound : index.declarations.reverse.find? fun declaration =>
      decide (declaration.binding.key = binding.key) with
  | none =>
      have hnone := List.find?_eq_none.mp hfound d (List.mem_reverse.mpr hd)
      simp [hkey] at hnone
  | some last =>
      have hmem := List.mem_of_find?_eq_some hfound
      have hlast := List.find?_some hfound
      exact ⟨last, List.mem_reverse.mp hmem, by simpa using hlast, rfl⟩

/-- A reference to a binding is spelled as an identifier, and look-up leads from it to the
binding. -/
theorem of_mem_references {binding n : Cursor} (h : n ∈ (ofUnit unit).references binding) :
    n ∈ unit.cursors ∧ n.kind.isReference = true ∧ (ofUnit unit).isBinding n = false ∧
      ∃ target, (ofUnit unit).declarationOf? n = some target ∧ target.key = binding.key := by
  unfold references at h
  split at h
  · rename_i owner howner
    obtain ⟨found, hfound, rfl⟩ := Option.map_eq_some_iff.mp howner
    have hscope := scope_mem_cursors (List.mem_reverse.mp (List.mem_of_find?_eq_some hfound))
    obtain ⟨hwalk, htest⟩ := List.mem_filter.mp h
    simp only [mentions, refersTo, Bool.and_eq_true, Bool.not_eq_true'] at htest
    obtain ⟨⟨hkind, _⟩, ⟨hfree, _⟩, hmatch⟩ := htest
    have hunder := (mem_unit_cursors.mp hscope).trans (under_of_mem_walkUntil hwalk)
    refine ⟨mem_unit_cursors.mpr hunder, hkind, hfree, ?_⟩
    split at hmatch
    · rename_i target htarget
      exact ⟨target, htarget, of_decide_eq_true hmatch⟩
    · simp at hmatch
  · simp at h

/-- A reference has a scope around it, so it is not the top of the file. -/
theorem named_of_mem_references {binding n : Cursor}
    (h : n ∈ (ofUnit unit).references binding) : n.label.named = true := by
  obtain ⟨hmem, _, hfree, target, htarget, _⟩ := of_mem_references h
  obtain ⟨scope, hscope, _⟩ := of_declarationOf? hfree htarget
  exact named_of_mem_cursors hmem hscope

/-- A node refers to one binding. -/
theorem key_eq_of_mem_references {binding other n : Cursor}
    (h : n ∈ (ofUnit unit).references binding)
    (hother : n ∈ (ofUnit unit).references other) : binding.key = other.key := by
  obtain ⟨_, _, _, target, htarget, hkey⟩ := of_mem_references h
  obtain ⟨_, _, _, target', htarget', hkey'⟩ := of_mem_references hother
  obtain rfl := Option.some.inj (htarget.symm.trans htarget')
  exact hkey.symm.trans hkey'

/-! ## One scope for every name -/

theorem cursor_eq_of_key_eq (hdistinct : (unit.cursors.map Cursor.key).Nodup) {c e : Cursor}
    (hc : c ∈ unit.cursors) (he : e ∈ unit.cursors) (hkey : c.key = e.key) : c = e :=
  List.inj_on_of_nodup_map hdistinct hc he hkey

/-- A named node is met by the walk over the file: what has something below it is named. -/
theorem mem_cursors_of_token_leaf
    (htokens : ∀ c ∈ unit.places, c.label.named = false → c.node.children = []) {c : Cursor}
    (hc : In unit c) (hnamed : c.label.named = true) : c ∈ unit.cursors := by
  refine mem_unit_cursors.mpr ?_
  induction hc with
  | here => exact .here
  | @down parent node hparent hnode ih =>
      refine .down (ih ?_) hnode hnamed
      cases hflag : parent.label.named with
      | true => rfl
      | false =>
          have hnone := htokens parent (mem_unit_places.mpr hparent) hflag
          rw [hnone] at hnode
          simp at hnode

theorem mem_cursors_of_named (h : unit.WellParsed) {c : Cursor} (hc : In unit c)
    (hnamed : c.label.named = true) : c ∈ unit.cursors :=
  mem_cursors_of_token_leaf h.token_leaf hc hnamed

theorem binding_mem_cursors (h : unit.WellParsed) (hd : d ∈ (ofUnit unit).declarations) :
    d.binding ∈ unit.cursors :=
  mem_cursors_of_named h (binding_in hd) (h.binding_named d hd)

/-- The scope of a declaration shows in what is around the name. -/
theorem declaringScope?_eq_scope
    (hparameters : ∀ c ∈ unit.places, c.label.field = some .parameters → c.kind.isScope = false)
    (hd : d ∈ (ofUnit unit).declarations) : d.binding.declaringScope? = some d.scope := by
  obtain ⟨c, hc, hdc⟩ := mem_declarations_ofUnit.mp hd
  refine declaringScope?_of_declares (of_mem_declarations hdc).1 fun list hlist => ?_
  have hin := (In.of_mem_cursors hc).child? hlist
  exact hparameters list (mem_unit_places.mpr hin) (field_of_child? hlist)

/-- The scope remembered for a name that no other declared name is taken for is the one that it was
declared in. -/
theorem owner?_eq_scope
    (hparameters : ∀ c ∈ unit.places, c.label.field = some .parameters → c.kind.isScope = false)
    (hd : d ∈ (ofUnit unit).declarations)
    (hapart : ∀ e ∈ (ofUnit unit).declarations, e.binding.key = d.binding.key →
      e.binding = d.binding) :
    (ofUnit unit).owner? d.binding = some d.scope := by
  obtain ⟨last, hlast, hkey, howner⟩ := exists_owner? (isBinding_iff.mpr ⟨d, hd, rfl⟩)
  have hscope := declaringScope?_eq_scope hparameters hlast
  rw [hapart last hlast hkey, declaringScope?_eq_scope hparameters hd] at hscope
  rw [howner, Option.some.inj hscope]

/-- Declarations of one binding are declarations in one scope. -/
theorem scope_eq_of_binding_eq (h : unit.WellParsed) {d e : Declaration}
    (hd : d ∈ (ofUnit unit).declarations) (he : e ∈ (ofUnit unit).declarations)
    (hbinding : d.binding = e.binding) : d.scope = e.scope := by
  have hscope := declaringScope?_eq_scope h.parameters_not_scope hd
  rw [hbinding, declaringScope?_eq_scope h.parameters_not_scope he] at hscope
  exact (Option.some.inj hscope).symm

theorem owner?_eq (h : unit.WellParsed) (hd : d ∈ (ofUnit unit).declarations) :
    (ofUnit unit).owner? d.binding = some d.scope := by
  refine owner?_eq_scope h.parameters_not_scope hd fun e he hkey => ?_
  exact cursor_eq_of_key_eq h.distinct (binding_mem_cursors h he) (binding_mem_cursors h hd) hkey

/-! ## References are found below the scope -/

/-- An identifier that means a binding is spelled like it, and look-up finds the binding in the
scope that the binding was declared in. -/
theorem Refers.lookup?_scope (h : unit.WellParsed) (hd : d ∈ (ofUnit unit).declarations)
    {n : Cursor} (hn : n ∈ unit.cursors) (hrefers : (ofUnit unit).Refers d.binding n) :
    d.scope ∈ n.lineage ∧ (ofUnit unit).lookup? d.scope d.name = some d.binding ∧
      n.text = d.binding.text := by
  obtain ⟨scope, hscope, hlookup⟩ := of_declarationOf? hrefers.free hrefers.declared
  obtain ⟨found, hfound, hkey, hname, hbinding⟩ := of_lookup? hlookup
  have hfoundScope : found.scope = scope := cursor_eq_of_key_eq h.distinct
    (scope_mem_cursors hfound) (mem_cursors_of_mem_lineage hn hscope) hkey
  have heq : scope = d.scope :=
    hfoundScope.symm.trans (scope_eq_of_binding_eq h hfound hd hbinding)
  have htext : n.text = d.binding.text := by
    rw [← hname, name_eq_text hfound, hbinding]
  refine ⟨heq ▸ hscope, ?_, htext⟩
  rw [← heq, name_eq_text hd, ← htext]
  exact hlookup

/-- Identifiers that mean a binding are on the walk from its scope. -/
theorem Refers.mem_walk_scope (h : unit.WellParsed) (hd : d ∈ (ofUnit unit).declarations)
    {n : Cursor} (hn : n ∈ unit.cursors) (hrefers : (ofUnit unit).Refers d.binding n) :
    n ∈ d.scope.walk := by
  have hscope := (hrefers.lookup?_scope h hd hn).1
  exact mem_walk.mpr ((mem_unit_cursors.mp hn).of_mem_lineage hscope).2

/-- The test that the search makes at each node of the walk is reference to the binding. -/
theorem mentions_and_refersTo_iff (h : unit.WellParsed) (hd : d ∈ (ofUnit unit).declarations)
    {n : Cursor} (hn : n ∈ unit.cursors) :
    (mentions d.binding.text n && (ofUnit unit).refersTo d.binding n) = true ↔
      (ofUnit unit).Refers d.binding n := by
  constructor
  · intro htest
    simp only [mentions, refersTo, Bool.and_eq_true, Bool.not_eq_true', decide_eq_true_eq] at htest
    obtain ⟨⟨hkind, _⟩, ⟨hfree, houtside⟩, hmatch⟩ := htest
    refine refers_iff.mpr ⟨hkind, hfree, houtside, ?_⟩
    split at hmatch
    · rename_i target hdeclared
      obtain ⟨scope, _, hlookup⟩ := of_declarationOf? hfree hdeclared
      obtain ⟨found, hfound, _, _, hbinding⟩ := of_lookup? hlookup
      have heq : target = d.binding := cursor_eq_of_key_eq h.distinct
        (hbinding ▸ binding_mem_cursors h hfound) (binding_mem_cursors h hd) (by simpa using hmatch)
      rw [hdeclared, heq]
    · simp at hmatch
  · intro hrefers
    obtain ⟨hkind, hfree, houtside, hdeclared⟩ := refers_iff.mp hrefers
    have htext := (hrefers.lookup?_scope h hd hn).2.2
    simp [mentions, refersTo, hkind, hfree, houtside, hdeclared, htext]

/-- The references of a binding are the nodes on the walk over the file that refer to it. -/
theorem references_eq_filter_cursors (h : unit.WellParsed)
    (hd : d ∈ (ofUnit unit).declarations) :
    (ofUnit unit).references d.binding =
      unit.cursors.filter fun n => decide ((ofUnit unit).Refers d.binding n) := by
  have hscope := scope_mem_cursors hd
  have hunder := mem_unit_cursors.mp hscope
  -- the search stops at identifiers, which have nothing below them
  have hcut : d.scope.walkUntil (mentions d.binding.text) = d.scope.walk := by
    refine walkUntil_eq_walk fun n hn hmentions => ?_
    have hin : In unit n := (In.of_mem_cursors hscope).beneath hn.beneath
    simp only [mentions, Bool.and_eq_true] at hmentions
    exact h.identifier_leaf n (mem_unit_places.mpr hin) hmentions.1
  obtain ⟨front, back, hwalk⟩ := walk_eq_append hunder
  have hcursors : unit.cursors = front ++ d.scope.walk ++ back := hwalk
  have hdisjoint := h.distinct
  rw [hcursors, List.map_append, List.map_append, List.nodup_append, List.nodup_append] at hdisjoint
  obtain ⟨⟨_, _, hfront⟩, _, hback⟩ := hdisjoint
  -- nothing outside the walk from the scope refers to the binding
  have hfrontNone : front.filter (fun n => decide ((ofUnit unit).Refers d.binding n)) = [] := by
    refine List.filter_eq_nil_iff.mpr fun n hn hrefers => ?_
    have hmem : n ∈ unit.cursors := by simp [hcursors, hn]
    have hinside := Refers.mem_walk_scope h hd hmem (of_decide_eq_true hrefers)
    exact hfront _ (List.mem_map_of_mem hn) _ (List.mem_map_of_mem hinside) rfl
  have hbackNone : back.filter (fun n => decide ((ofUnit unit).Refers d.binding n)) = [] := by
    refine List.filter_eq_nil_iff.mpr fun n hn hrefers => ?_
    have hmem : n ∈ unit.cursors := by simp [hcursors, hn]
    have hinside := Refers.mem_walk_scope h hd hmem (of_decide_eq_true hrefers)
    exact hback _ (List.mem_append_right _ (List.mem_map_of_mem hinside)) _
      (List.mem_map_of_mem hn) rfl
  rw [hcursors, List.filter_append, List.filter_append, hfrontNone, hbackNone, List.nil_append,
    List.append_nil, references, owner?_eq h hd]
  simp only [hcut]
  refine List.filter_congr fun n hn => ?_
  have hmem : n ∈ unit.cursors := by simp [hcursors, hn]
  rw [Bool.eq_iff_iff, mentions_and_refersTo_iff h hd hmem, decide_eq_true_iff]

theorem root_named (h : unit.WellParsed) (hd : d ∈ (ofUnit unit).declarations) :
    unit.top.label.named = true := by
  cases hflag : unit.top.label.named with
  | true => rfl
  | false =>
      have hleaf := h.token_leaf unit.top (mem_unit_places.mpr .top) hflag
      have hbinding := Beneath.eq_of_leaf (binding_in hd) hleaf
      have hnamed := h.binding_named d hd
      rw [hbinding, hflag] at hnamed
      exact hnamed

/-- The references of a binding are, in preorder and each once, the named nodes of the whole
file that refer to it.  So an identifier is a reference of one binding at most, and a
binding that another one of its scope came before has none. -/
theorem references_eq_filter_places (h : unit.WellParsed) (hd : d ∈ (ofUnit unit).declarations) :
    (ofUnit unit).references d.binding =
        unit.places.filter (fun n => n.label.named && decide ((ofUnit unit).Refers d.binding n)) ∧
      ((ofUnit unit).references d.binding).Nodup ∧
      (∀ e ∈ (ofUnit unit).declarations, ∀ n ∈ (ofUnit unit).references d.binding,
        n ∈ (ofUnit unit).references e.binding → e.binding = d.binding) ∧
      ∀ winner, (ofUnit unit).lookup? d.scope d.name = some winner → winner ≠ d.binding →
        (ofUnit unit).references d.binding = [] := by
  have hreferences := references_eq_filter_cursors h hd
  have hnamed : unit.places.filter (fun n => n.label.named) = unit.cursors :=
    filter_named_places (root_named h hd) h.token_leaf
  refine ⟨?_, ?_, ?_, ?_⟩
  · rw [hreferences, ← hnamed, List.filter_filter]
    exact List.filter_congr fun n _ => Bool.and_comm _ _
  · rw [hreferences]
    exact h.distinct.of_map.filter _
  · intro e he n hn hn'
    rw [hreferences, List.mem_filter] at hn
    rw [references_eq_filter_cursors h he, List.mem_filter] at hn'
    have hd' := (of_decide_eq_true hn.2).declared
    have he' := (of_decide_eq_true hn'.2).declared
    exact Option.some.inj (he'.symm.trans hd')
  · intro winner hwinner hne
    rw [hreferences]
    refine List.filter_eq_nil_iff.mpr fun n hn hrefers => ?_
    have hlookup := (Refers.lookup?_scope h hd hn (of_decide_eq_true hrefers)).2.1
    exact hne (Option.some.inj (hwinner.symm.trans hlookup))

/-- The file `let t; var t; t;`. -/
def redeclared : SourceUnit :=
  let declarator (start : Nat) : Node :=
    .mk ⟨.variableDeclarator, true, false, start, start + 1, ⟨0, start⟩, none⟩
      [.mk ⟨.identifier, true, false, start, start + 1, ⟨0, start⟩, some .name⟩ []]
  { path := "t.ts"
    source := "let t; var t; t;".toUTF8.data
    root := .mk ⟨.program, true, false, 0, 16, ⟨0, 0⟩, none⟩
      [.mk ⟨.lexicalDeclaration, true, false, 0, 6, ⟨0, 0⟩, none⟩
        [.mk ⟨.other "let", false, false, 0, 3, ⟨0, 0⟩, some .kind⟩ [], declarator 4],
        .mk ⟨.variableDeclaration, true, false, 7, 13, ⟨0, 7⟩, none⟩ [declarator 11],
        .mk ⟨.other "expression_statement", true, false, 14, 16, ⟨0, 14⟩, none⟩
          [.mk ⟨.identifier, true, false, 14, 15, ⟨0, 14⟩, none⟩ []]] }

theorem references_redeclared :
    redeclared.WellParsed ∧ ∃ lost ∈ (ofUnit redeclared).declarations,
      lost.binding.label.start = 11 ∧ (ofUnit redeclared).references lost.binding = [] := by
  have hparsed : redeclared.WellParsed :=
    ⟨by decide, by decide, by decide, by decide, by decide⟩
  obtain ⟨lost, hlost, hstart, hwinner⟩ : ∃ lost ∈ (ofUnit redeclared).declarations,
      lost.binding.label.start = 11 ∧
        ((ofUnit redeclared).lookup? lost.scope lost.name).any (· ≠ lost.binding) = true := by
    decide
  obtain ⟨winner, hlookup, hne⟩ := (Option.any_eq_true _ _).mp hwinner
  have hlast := (references_eq_filter_places hparsed hlost).2.2.2
  exact ⟨hparsed, lost, hlost, hstart, hlast winner hlookup (by simpa using hne)⟩

end ScopeIndex

end MessageKeys.Syntax
