import MessageKeys.Proofs.Usage.Callees

/-!
# Imported functions are those of their file

A function can be called in its own file, through an import of its exported name, perhaps renamed,
and as a member of the whole file.  These calls are resolved along different ways: by the scopes
around the call, by the table of exports, and by the members of a receiver.  They all end at the
function that the exported name stands for at the top of its file
(`Project.callee?_of_imported_name`).  The importing file has to be a program for that: in one that
the parser gave up on, look-up does not get to the imports, and the calls lead nowhere.

The table of exports keeps the first provider of a name (`Assoc.get?_foldl_insertNew`), so a name
exported once is looked up at its provider (`SourceUnit.Provides.get?_exports`).  A provider in an
exported declaration is what the top of the file declares, and one in a list of exported names
means it.  That leads both to `SourceUnit.topFunction?`.
-/

namespace MessageKeys

open Syntax Cursor

namespace Syntax.SourceUnit

/-! ## Exported names and their providers -/

/-- What the export statements of a file export, in order. -/
def exportEntries (unit : SourceUnit) : List (Text × Cursor) :=
  (unit.top.namedChildren.filter fun statement => decide (statement.kind = .exportStatement))
    |>.flatMap Cursor.statementExports

/-- The file exports the name once. -/
def ExportsOnce (unit : SourceUnit) (name : Text) : Prop :=
  (unit.exportEntries.countP fun entry => decide (entry.1 = name)) = 1

instance (unit : SourceUnit) (name : Text) : Decidable (unit.ExportsOnce name) :=
  inferInstanceAs (Decidable (_ = _))

/-- A statement at the top of the file that exports names of the file, and not as the default. -/
structure ExportsNames (unit : SourceUnit) (statement : Cursor) : Prop where
  mem : statement ∈ unit.top.namedChildren
  kind : statement.kind = .exportStatement
  source : statement.child? .source = none
  named : ∀ child ∈ statement.children, child.kind ≠ .defaultKeyword

/-- The node names in the file what the file exports: it is declared by an exported declaration, or
stands in a list of exported names, perhaps under another name for the outside. -/
inductive Provides (unit : SourceUnit) : Text → Cursor → Prop
  | declared {statement declaration provider : Cursor} (hstatement : unit.ExportsNames statement)
      (hdeclaration : statement.child? .declaration = some declaration)
      (hprovider : provider ∈ declaration.declaredNames) : Provides unit provider.text provider
  | listed {statement list specifier provider : Cursor} {exportedName : Text}
      (hstatement : unit.ExportsNames statement) (hnone : statement.child? .declaration = none)
      (hlist : list ∈ statement.namedChildren) (hlistKind : list.kind = .exportClause)
      (hspecifier : specifier ∈ list.namedChildren)
      (hspecifierKind : specifier.kind = .exportSpecifier)
      (hprovider : specifier.child? .name = some provider) (hkind : provider.kind = .identifier)
      (hname : ((specifier.child? .localName).or (some provider)).bind propertyName? =
        some exportedName) : Provides unit exportedName provider

variable {unit : SourceUnit} {statement provider : Cursor} {name : Text}

theorem ExportsNames.no_default (h : unit.ExportsNames statement) :
    (statement.children.any fun child => decide (child.kind = .defaultKeyword)) = false := by
  simpa using h.named

theorem Provides.mem_statementExports (h : unit.Provides name provider) :
    ∃ statement, unit.ExportsNames statement ∧ (name, provider) ∈ statement.statementExports := by
  cases h with
  | @declared statement _ _ hstatement hdeclaration hprovider =>
      refine ⟨statement, hstatement, ?_⟩
      simp only [statementExports, hstatement.source, hstatement.no_default, hdeclaration]
      exact List.mem_map_of_mem hprovider
  | @listed statement list specifier _ _ hstatement hnone hlist hlistKind hspecifier hspecifierKind
      hprovider _ hname =>
      refine ⟨statement, hstatement, ?_⟩
      simp only [statementExports, hstatement.source, hstatement.no_default, hnone]
      refine List.mem_flatMap.mpr
        ⟨list, List.mem_filter.mpr ⟨hlist, by simp [hlistKind]⟩, List.mem_filterMap.mpr
          ⟨specifier, List.mem_filter.mpr ⟨hspecifier, by simp [hspecifierKind]⟩, ?_⟩⟩
      simp only [specifierExport?, hprovider, hname]

theorem Provides.mem_exportEntries (h : unit.Provides name provider) :
    (name, provider) ∈ unit.exportEntries := by
  obtain ⟨statement, hstatement, hmem⟩ := h.mem_statementExports
  exact List.mem_flatMap.mpr
    ⟨statement, List.mem_filter.mpr ⟨hstatement.mem, by simp [hstatement.kind]⟩, hmem⟩

/-- A name that is exported once is looked up at its provider. -/
theorem Provides.get?_exports (h : unit.Provides name provider) (honce : unit.ExportsOnce name) :
    Assoc.get? name unit.exports = some provider := by
  have htable : Assoc.get? name unit.exports = Assoc.get? name unit.exportEntries :=
    Assoc.get?_foldl_insertNew name unit.exportEntries []
  rw [htable]
  cases hfound : Assoc.get? name unit.exportEntries with
  | none => exact absurd hfound (Assoc.get?_ne_none h.mem_exportEntries)
  | some other =>
      have heq := eq_of_countP_eq_one honce (Assoc.mem_of_get? hfound) h.mem_exportEntries
        (by simp) (by simp)
      rw [(Prod.mk.inj heq).2]

/-! ## Providers and the top of the file -/

/-- A name of a pattern is an identifier.  It is the pattern itself or stands in one. -/
theorem kind_of_mem_patternBindings {c d : Cursor} (h : d ∈ c.patternBindings) :
    (d.kind = .identifier ∨ d.kind = .shorthandPropertyIdentifierPattern) ∧
      (d = c ∨ ∃ parent, d.parent? = some parent ∧ parent.kind.isPattern = true) := by
  induction c using induction_down with
  | h c ih =>
      rw [patternBindings_eq] at h
      split at h
      · rename_i hkind
        rw [List.mem_singleton.mp h]
        exact ⟨hkind, Or.inl rfl⟩
      · obtain ⟨part, hpart, hd⟩ := List.mem_flatMap.mp h
        have hchild := mem_children_of_mem_patternParts hpart
        obtain ⟨hkind, rfl | hparent⟩ := ih part hchild hd
        · exact ⟨hkind, Or.inr ⟨c, parent?_of_mem_children hchild,
            isPattern_of_mem_patternParts hpart⟩⟩
        · exact ⟨hkind, Or.inr hparent⟩

/-- A declaration declares the name of a function or class, or the names in its declarators. -/
theorem of_mem_declaredNames {declaration : Cursor} (h : provider ∈ declaration.declaredNames) :
    ((declaration.kind.isFunctionDeclaration = true ∨ declaration.kind = .classDeclaration) ∧
        declaration.child? .name = some provider) ∨
      (declaration.kind.isScope = false ∧ ∃ declarator ∈ declaration.namedChildren,
        declarator.kind = .variableDeclarator ∧ provider ∈ declarator.bindingsOf .name) := by
  unfold declaredNames at h
  split at h
  case h_1 hkind | h_2 hkind => exact Or.inl ⟨Or.inl (by rw [hkind]; rfl), Option.mem_toList.mp h⟩
  case h_3 hkind => exact Or.inl ⟨Or.inr hkind, Option.mem_toList.mp h⟩
  case h_4 hkind | h_5 hkind =>
    obtain ⟨declarator, hdeclarator, hname⟩ := List.mem_flatMap.mp h
    obtain ⟨hmem, hdeclaratorKind⟩ := List.mem_filter.mp hdeclarator
    exact Or.inr ⟨by rw [hkind]; rfl, declarator, hmem, of_decide_eq_true hdeclaratorKind, hname⟩
  case h_6 => simp at h

/-- A name that an exported declaration declares is no function itself, and one that is no
identifier says nothing about a function. -/
theorem Grammatical.kind_of_mem_declaredNames (h : unit.Grammatical) {declaration : Cursor}
    (hin : In unit declaration) (hname : provider ∈ declaration.declaredNames) :
    provider.kind.isFunction = false ∧
      (provider.kind.isReference = true ∨ Callee.bound provider = .elsewhere) := by
  have hplace := mem_unit_places.mpr hin
  rcases of_mem_declaredNames hname with
    ⟨hkind | hkind, hfound⟩ | ⟨_, declarator, hmem, hkind, hbinding⟩
  · rw [h.function_name declaration hplace hkind provider hfound]
    exact ⟨rfl, Or.inl rfl⟩
  · refine ⟨by rw [h.class_name declaration hplace hkind provider hfound]; rfl, Or.inr ?_⟩
    exact Callee.bound_eq_elsewhere (parent?_of_child? hfound) (by rw [hkind]; rfl)
      (by simp [hkind])
  · obtain ⟨pattern, hpattern, hbinding⟩ := mem_bindingsOf.mp hbinding
    obtain ⟨hprovider | hprovider, hwhere⟩ := kind_of_mem_patternBindings hbinding
    · rw [hprovider]
      exact ⟨rfl, Or.inl rfl⟩
    · refine ⟨by rw [hprovider]; rfl, Or.inr ?_⟩
      rcases hwhere with rfl | ⟨parent, hparent, hparentKind⟩
      · -- the pattern of a variable is no property of an object
        have hkinds := h.declarator_name declarator
          (mem_unit_places.mpr (hin.of_mem_namedChildren hmem)) hkind provider hpattern
        simp [hprovider] at hkinds
      · refine Callee.bound_eq_elsewhere hparent ?_ ?_
        · revert hparentKind
          cases parent.kind <;> simp [Kind.isPattern, Kind.isFunction]
        · intro hvariable
          simp [hvariable, Kind.isPattern] at hparentKind

/-- What has a name below it is met by the walk over the file. -/
theorem WellParsed.mem_cursors_of_child? (h : unit.WellParsed) {c d : Cursor} (hc : In unit c)
    {field : Field} (hd : c.child? field = some d) : c ∈ unit.cursors := by
  refine ScopeIndex.mem_cursors_of_named h hc ?_
  by_contra hunnamed
  have hleaf := h.token_leaf c (mem_unit_places.mpr hc) (Bool.eq_false_iff.mpr hunnamed)
  obtain ⟨node, hnode, _⟩ := mem_children.mp (mem_children_of_child? hd)
  simp [hleaf] at hnode

/-- What an exported declaration declares, it declares at the top of the program. -/
theorem Grammatical.mem_declarations_of_mem_declaredNames (h : unit.Grammatical)
    (hprogram : unit.top.kind = .program) {declaration : Cursor}
    (hstatement : unit.ExportsNames statement)
    (hdeclaration : statement.child? .declaration = some declaration)
    (hname : provider ∈ declaration.declaredNames) :
    Declaration.of unit.top provider ∈ (ScopeIndex.ofUnit unit).declarations := by
  have htop : unit.top.kind.isScope = true := h.isScope_top_iff.mpr hprogram
  have hin := (In.top.of_mem_namedChildren hstatement.mem).child? hdeclaration
  have hatTop : unit.AtTop declaration :=
    (AtTop.of_mem_top (mem_namedChildren.mp hstatement.mem).1).of_mem_children
      (by rw [hstatement.kind]; rfl) (mem_children_of_child? hdeclaration)
  rw [ScopeIndex.mem_declarations_ofUnit]
  rcases of_mem_declaredNames hname with
    ⟨hkind, hfound⟩ | ⟨hkind, declarator, hmem, hvariable, hbinding⟩
  · have hscope : declaration.enclosingScope? = some unit.top :=
      hatTop.ancestor?_eq (hin.top_mem_lineage (parent?_of_child? hdeclaration)) htop
        fun _ hscope => hscope
    exact ⟨declaration, h.mem_cursors_of_child? hin hfound,
      (Declares.name hkind hscope hfound).mem_declarations⟩
  · obtain ⟨hchild, hnamed⟩ := mem_namedChildren.mp hmem
    have hdeclaratorIn := hin.of_mem_namedChildren hmem
    have hdeclaratorTop := hatTop.of_mem_children hkind hchild
    have habove := hdeclaratorIn.top_mem_lineage (parent?_of_mem_children hchild)
    have hscope : declarator.declaratorScope? = some unit.top := by
      unfold declaratorScope?
      split
      · refine hdeclaratorTop.ancestor?_eq habove (by rw [hprogram]; rfl) fun kind hkind => ?_
        revert hkind
        cases kind <;> simp [Kind.isHoistTarget, Kind.isScope, Kind.isFunction]
      · exact hdeclaratorTop.ancestor?_eq habove htop fun _ hscope => hscope
    exact ⟨declarator, ScopeIndex.mem_cursors_of_named h.toWellParsed hdeclaratorIn hnamed,
      (Declares.declarator hvariable hscope hbinding).mem_declarations⟩

/-- The function that a name stands for at the top of a file, without any other file. -/
def topFunction? (unit : SourceUnit) (name : Text) : Option Cursor :=
  match (ScopeIndex.ofUnit unit).programBinding? name with
  | some declaration =>
      match Callee.bound declaration with
      | .function f => some f
      | _ => none
  | none => none

theorem topFunction?_of_mem_imports (h : unit.WellParsed) {found : ImportBinding}
    (hfound : found ∈ unit.imports) (honce : unit.DeclaresOnce found.localName) :
    unit.topFunction? found.localName = none := by
  simp only [topFunction?, programBinding?_of_mem_imports h hfound honce,
    Callee.bound_of_mem_imports hfound]

end Syntax.SourceUnit

namespace Callee

open SourceUnit

variable {project : Project} {unit target : SourceUnit} {name : Text} {provider call f : Cursor}
  {found : ImportBinding}

/-- A program exports under a name the function that the provider stands for at its top. -/
theorem exported?_of_provides (hproject : project.Coherent) (htarget : target.Grammatical)
    (hprogram : target.top.kind = .program) (h : target.Provides name provider)
    (hexports : target.ExportsOnce name) (honce : target.DeclaresOnce provider.text) :
    exported? project target name = target.topFunction? provider.text := by
  unfold exported? topFunction?
  rw [h.get?_exports hexports, hproject.index_eq]
  cases h with
  | @declared statement declaration _ hstatement hdeclaration hprovider =>
      -- a declared name means itself, and the top has no other declaration of it
      have hin := (In.top.of_mem_namedChildren hstatement.mem).child? hdeclaration
      obtain ⟨hfunction, hreference⟩ := htarget.kind_of_mem_declaredNames hin hprovider
      have hdeclared := htarget.mem_declarations_of_mem_declaredNames hprogram hstatement
        hdeclaration hprovider
      have hbinding : (ScopeIndex.ofUnit target).isBinding provider = true :=
        ScopeIndex.isBinding_iff.mpr ⟨_, hdeclared, rfl⟩
      have hself : (ScopeIndex.ofUnit target).declarationOf? provider = some provider := by
        rw [ScopeIndex.declarationOf?, if_pos hbinding]
      have htop : (ScopeIndex.ofUnit target).programBinding? provider.text = some provider :=
        ScopeIndex.programBinding?_of_declaresOnce htarget.distinct honce hdeclared rfl rfl
      rcases hreference with hreference | hbound
      · cases hbound : bound provider <;> simp [hfunction, hreference, hself, htop, hbound]
      · simp [hfunction, hself, htop, hbound]
  | listed hstatement _ hlist hlistKind hspecifier hspecifierKind hprovider hkind _ =>
      -- a listed name is looked up from the top: nothing between it and the file is a scope
      have hspecifierTop : target.AtTop _ :=
        ((AtTop.of_mem_top (mem_namedChildren.mp hstatement.mem).1).of_mem_children
          (by rw [hstatement.kind]; rfl) (mem_namedChildren.mp hlist).1).of_mem_children
          (by rw [hlistKind]; rfl) (mem_namedChildren.mp hspecifier).1
      have hin := (((In.top.of_mem_namedChildren hstatement.mem).of_mem_namedChildren
        hlist).of_mem_namedChildren hspecifier).child? hprovider
      have hshadow := (hspecifierTop.of_mem_children (by rw [hspecifierKind]; rfl)
        (mem_children_of_child? hprovider)).unshadowed
      have hmeans := htarget.declarationOf?_eq hin (by rw [hkind]; rfl)
        (parent?_of_child? hprovider) (by rw [hspecifierKind]; rfl) (by rw [hspecifierKind]; rfl)
        hshadow
      rw [if_pos hprogram] at hmeans
      cases htop : (ScopeIndex.ofUnit target).programBinding? provider.text with
      | none => simp [hkind, Kind.isFunction, hmeans, htop]
      | some declaration =>
          cases hbound : bound declaration <;>
            simp [hkind, Kind.isFunction, Kind.isReference, hmeans, htop, hbound]

/-! ## Calls of names of the top -/

/-- The call invokes a name, and the name means what the top of the file declares. -/
structure CallsName (unit : SourceUnit) (name : Text) (call : Cursor) : Prop where
  kind : call.kind = .callExpression
  callee : ∃ callee, call.child? .function = some callee ∧ In unit callee ∧
    callee.kind = .identifier ∧ callee.text = name ∧ unit.Unshadowed callee

/-- The call invokes a member of a name, and the name means what the top of the file declares. -/
structure CallsMember (unit : SourceUnit) (name property : Text) (call : Cursor) : Prop where
  kind : call.kind = .callExpression
  callee : ∃ access receiver, call.child? .function = some access ∧
    access.kind = .memberExpression ∧ access.child? .object = some receiver ∧
    (access.child? .property).bind propertyName? = some property ∧ In unit receiver ∧
    receiver.kind = .identifier ∧ receiver.text = name ∧ unit.Unshadowed receiver

/-- An import that is the only declaration of its name leads to what it imports. -/
theorem imported?_of_mem_imports (h : unit.WellParsed) (hfound : found ∈ unit.imports)
    (honce : unit.DeclaresOnce found.localName) :
    imported? project found.node =
      (project.resolveModule? unit found.module).map fun target =>
        (target, found.importedName) := by
  have hnode := node_mem_cursors_of_mem_imports h hfound
  have hunit : found.node.unit = unit := (In.of_mem_cursors hnode).unit_eq
  unfold imported?
  rw [hunit]
  cases hfirst : unit.imports.find? fun other => decide (other.node.key = found.node.key) with
  | none => exact absurd (List.find?_eq_none.mp hfirst found hfound) (by simp)
  | some other =>
      -- the search is by the node's identity, which two imports of one name could share
      have hother := List.mem_of_find?_eq_some hfirst
      have hkey : other.node.key = found.node.key := by simpa using List.find?_some hfirst
      have hsame : other.node = found.node := ScopeIndex.cursor_eq_of_key_eq h.distinct
        (node_mem_cursors_of_mem_imports h hother) hnode hkey
      have hname : other.localName = found.localName := by
        rw [localName_eq_text hother, localName_eq_text hfound, hsame]
      rw [import_eq_of_declaresOnce hfound hother hname honce]

/-- A call of a name of the top is resolved by what the top of the file means by the name, if the
file is a program. -/
theorem CallsName.spec (hproject : project.Coherent) (hunit : unit.Grammatical)
    (hcall : CallsName unit name call) :
    ∃ callee, project.callee? call = named? project callee ∧
      (project.index callee.unit).declarationOf? callee =
        if unit.top.kind = .program then (ScopeIndex.ofUnit unit).programBinding? name
        else none := by
  obtain ⟨callee, hcallee, hin, hkind, rfl, hshadow⟩ := hcall.callee
  refine ⟨callee, by simp [Project.callee?, hcallee, hkind, Kind.isReference], ?_⟩
  rw [hproject.index_eq, hin.unit_eq]
  exact hunit.declarationOf?_eq hin (by rw [hkind]; rfl) (parent?_of_child? hcallee)
    (by rw [hcall.kind]; rfl) (by rw [hcall.kind]; rfl) hshadow

/-- What a file declares under a name that it does not import is no import. -/
theorem imported?_eq_none (project : Project) (h : unit.WellParsed) {d : Declaration}
    (hd : d ∈ (ScopeIndex.ofUnit unit).declarations)
    (hfree : ∀ found ∈ unit.imports, found.localName ≠ d.name) :
    imported? project d.binding = none := by
  have hin := ScopeIndex.binding_in hd
  unfold imported?
  rw [hin.unit_eq]
  split
  · rename_i found himport
    -- an import at the same node would have the same text
    have hmem := List.mem_of_find?_eq_some himport
    have hkey : found.node.key = d.binding.key := by simpa using List.find?_some himport
    have hunit : found.node.unit = d.binding.unit := by
      rw [hin.unit_eq, (In.of_mem_cursors (node_mem_cursors_of_mem_imports h hmem)).unit_eq]
    refine absurd ?_ (hfree found hmem)
    rw [localName_eq_text hmem, text_eq_of_key_eq hunit hkey, ScopeIndex.name_eq_text hd]
  · rfl

/-- A call of a name of the top that is no import invokes the function that the name stands for
there. -/
theorem callee?_of_callsName (hproject : project.Coherent) (hunit : unit.Grammatical)
    (hprogram : unit.top.kind = .program) (hcall : CallsName unit name call)
    (hfree : ∀ found ∈ unit.imports, found.localName ≠ name) :
    project.callee? call = unit.topFunction? name := by
  obtain ⟨callee, hnamed, hmeans⟩ := hcall.spec hproject hunit
  rw [if_pos hprogram] at hmeans
  rw [hnamed]
  unfold named? topFunction?
  rw [hmeans]
  cases hfound : (ScopeIndex.ofUnit unit).programBinding? name with
  | none => rfl
  | some declaration =>
      obtain ⟨d, hd, _, rfl, rfl⟩ := ScopeIndex.of_lookup? hfound
      have hnone := imported?_eq_none project hunit.toWellParsed hd hfree
      cases hbound : bound d.binding <;> simp [hbound, hnone]

/-- A call of an imported name in a program invokes what the other file exports under the imported
name.  In a file that is no program it invokes nothing. -/
theorem callee?_of_callsName_import (hproject : project.Coherent) (hunit : unit.Grammatical)
    (hfound : found ∈ unit.imports) (honce : unit.DeclaresOnce found.localName)
    (hresolved : project.resolveModule? unit found.module = some target)
    (hcall : CallsName unit found.localName call) :
    project.callee? call =
      if unit.top.kind = .program then exported? project target found.importedName else none := by
  obtain ⟨callee, hnamed, hmeans⟩ := hcall.spec hproject hunit
  rw [programBinding?_of_mem_imports hunit.toWellParsed hfound honce] at hmeans
  by_cases hprogram : unit.top.kind = .program
  · simp only [hprogram, if_true] at hmeans ⊢
    simp only [hnamed, named?, hmeans, bound_of_mem_imports hfound,
      imported?_of_mem_imports hunit.toWellParsed hfound honce, hresolved, Option.map_some]
  · simp only [hprogram, if_false] at hmeans ⊢
    simp only [hnamed, named?, hmeans]

theorem container?_of_mem_imports (h : found ∈ unit.imports) : container? found.node = none := by
  obtain ⟨part, hparent, hkind⟩ := parent?_of_mem_imports h
  unfold container?
  rw [hparent]
  rcases hkind with hkind | hkind | hkind <;> simp [hkind]

/-- A call of a member of a whole imported file invokes in a program what that file exports under
the member's name, and nothing in a file that is no program. -/
theorem callee?_of_callsMember_import (hproject : project.Coherent) (hunit : unit.Grammatical)
    (hfound : found ∈ unit.imports) (honce : unit.DeclaresOnce found.localName)
    (hresolved : project.resolveModule? unit found.module = some target)
    (hwhole : found.importedName = wholeModule)
    (hcall : CallsMember unit found.localName name call) :
    project.callee? call =
      if unit.top.kind = .program then exported? project target name else none := by
  obtain ⟨access, receiver, hcallee, haccess, hreceiver, hproperty, hin, hkind, htext, hshadow⟩ :=
    hcall.callee
  have hmeans := hunit.declarationOf?_eq hin (by rw [hkind]; rfl) (parent?_of_child? hreceiver)
    (by rw [haccess]; rfl) (by rw [haccess]; rfl) hshadow
  rw [htext, programBinding?_of_mem_imports hunit.toWellParsed hfound honce] at hmeans
  have hmember : project.callee? call = member? project access := by
    simp [Project.callee?, hcallee, haccess, Kind.isReference]
  have hthis : receiver.kind ≠ .thisExpression := by simp [hkind]
  have hidentifier : receiver.kind.isReference = true := by rw [hkind]; rfl
  by_cases hprogram : unit.top.kind = .program
  · simp only [hprogram, if_true] at hmeans ⊢
    simp only [hmember, member?, hreceiver, hproperty, hthis, hidentifier, hin.unit_eq,
      hproject.index_eq, hmeans, container?_of_mem_imports hfound,
      imported?_of_mem_imports hunit.toWellParsed hfound honce, hresolved, Option.map_some, hwhole,
      if_true, if_false]
  · simp only [hprogram, if_false] at hmeans ⊢
    simp only [hmember, member?, hreceiver, hproperty, hthis, hidentifier, hin.unit_eq,
      hproject.index_eq, hmeans, if_true, if_false]

end Callee

namespace Project

open SourceUnit Callee

/-- A program exports a name once, and what provides the name is declared once at its top.  Then in
a program the calls of the imported name under any local name, and the calls of the name as a member
of the whole imported file, invoke the function that the provider stands for at the top of the
exporting file.  If the provider is no import, then that is what a call of it in its own file
invokes.  If it is one, then there is no such function.  In a file that is no program the calls of
imported names invoke nothing. -/
theorem callee?_of_imported_name (root : Option Text) (units : List SourceUnit)
    (importer exporter : SourceUnit) (exportedName : Text) (provider : Cursor)
    (himporter : importer.Grammatical) (hexporter : exporter.Grammatical)
    (hprogram : exporter.top.kind = .program) (hprovides : exporter.Provides exportedName provider)
    (hexports : exporter.ExportsOnce exportedName)
    (honce : exporter.DeclaresOnce provider.text) :
    (∀ found ∈ importer.imports,
      (ofUnits root units).resolveModule? importer found.module = some exporter →
      importer.DeclaresOnce found.localName →
        (found.importedName = exportedName → ∀ call, CallsName importer found.localName call →
          (ofUnits root units).callee? call =
            if importer.top.kind = .program then exporter.topFunction? provider.text else none) ∧
        (found.importedName = wholeModule → ∀ call,
          CallsMember importer found.localName exportedName call →
          (ofUnits root units).callee? call =
            if importer.top.kind = .program then exporter.topFunction? provider.text else none)) ∧
      ((∀ found ∈ exporter.imports, found.localName ≠ provider.text) → ∀ call,
        CallsName exporter provider.text call →
        (ofUnits root units).callee? call = exporter.topFunction? provider.text) ∧
      ((∃ found ∈ exporter.imports, found.localName = provider.text) →
        exporter.topFunction? provider.text = none) := by
  have hproject := coherent_ofUnits root units
  have hexported : exported? (ofUnits root units) exporter exportedName =
      exporter.topFunction? provider.text :=
    exported?_of_provides hproject hexporter hprogram hprovides hexports honce
  refine ⟨fun found hfound hresolved hfoundOnce => ⟨?_, ?_⟩, ?_, ?_⟩
  · rintro rfl call hcall
    rw [callee?_of_callsName_import hproject himporter hfound hfoundOnce hresolved hcall, hexported]
  · intro hwhole call hcall
    rw [callee?_of_callsMember_import hproject himporter hfound hfoundOnce hresolved hwhole hcall,
      hexported]
  · intro hfree call hcall
    exact callee?_of_callsName hproject hexporter hprogram hcall hfree
  · rintro ⟨found, hfound, hname⟩
    rw [← hname] at honce ⊢
    exact topFunction?_of_mem_imports hexporter.toWellParsed hfound honce

/-- The file `export{greet as hello};const greet=t=>t;greet();`. -/
def greeter : SourceUnit :=
  let node (kind : Kind) (start stop : Nat) (field : Option Field) (children : List Node) : Node :=
    .mk ⟨kind, true, false, start, stop, ⟨0, start⟩, field⟩ children
  let name (start stop : Nat) (field : Option Field) := node .identifier start stop field []
  { path := "greet.ts"
    source := "export{greet as hello};const greet=t=>t;greet();".toUTF8.data
    root := node .program 0 48 none
      [node .exportStatement 0 23 none
        [node .exportClause 6 22 none
          [node .exportSpecifier 7 21 none
            [name 7 12 (some .name), name 16 21 (some .localName)]]],
        node .lexicalDeclaration 23 40 none
          [node .variableDeclarator 29 39 none
            [name 29 34 (some .name),
              node .arrowFunction 35 39 (some .value)
                [name 35 36 (some .parameter), name 38 39 (some .body)]]],
        node (.other "expression_statement") 40 48 none
          [node .callExpression 40 47 none
            [name 40 45 (some .function), node .arguments 45 47 (some .arguments) []]]] }

/-- The file `import{hello as hi}from"./greet";import*as all from"./greet";hi();all.hello();`. -/
def greeted : SourceUnit :=
  let node (kind : Kind) (start stop : Nat) (field : Option Field) (children : List Node) : Node :=
    .mk ⟨kind, true, false, start, stop, ⟨0, start⟩, field⟩ children
  let name (start stop : Nat) (field : Option Field) := node .identifier start stop field []
  let quoted (start stop : Nat) (field : Option Field) := node .string start stop field
    [node .stringFragment (start + 1) (stop - 1) none []]
  let called (start stop : Nat) (callee : Node) :=
    node (.other "expression_statement") start stop none
      [node .callExpression start (stop - 1) none
        [callee, node .arguments (stop - 3) (stop - 1) (some .arguments) []]]
  { path := "page.ts"
    source := ("import{hello as hi}from\"./greet\";import*as all from\"./greet\";" ++
      "hi();all.hello();").toUTF8.data
    root := node .program 0 78 none
      [node .importStatement 0 33 none
        [node .importClause 6 19 none
          [node .namedImports 6 19 none
            [node .importSpecifier 7 18 none
              [name 7 12 (some .name), name 16 18 (some .localName)]]],
          quoted 23 32 (some .source)],
        node .importStatement 33 61 none
          [node .importClause 39 46 none [node .namespaceImport 39 46 none [name 43 46 none]],
            quoted 51 60 (some .source)],
        called 61 66 (name 61 63 (some .function)),
        called 66 78 (node .memberExpression 66 75 (some .function)
          [name 66 69 (some .object), node .propertyIdentifier 70 75 (some .property) []])] }

/-- The calls `hi()`, `all.hello()` and `greet()` all invoke the function of `greeter`. -/
theorem callee?_of_imported_name_hello :
    let project := ofUnits none [greeted, greeter]
    ∃ renamed ∈ greeted.cursors, ∃ member ∈ greeted.cursors, ∃ own ∈ greeter.cursors,
      renamed.label.start = 61 ∧ member.label.start = 66 ∧
      ∃ f, greeter.topFunction? "greet" = some f ∧ project.callee? renamed = some f ∧
        project.callee? member = some f ∧ project.callee? own = some f := by
  intro project
  have hgreeted : greeted.Grammatical :=
    ⟨⟨by decide, by decide, by decide, by decide, by decide⟩, by decide, by decide, by decide,
      by decide, by decide, by decide⟩
  have hgreeter : greeter.Grammatical :=
    ⟨⟨by decide, by decide, by decide, by decide, by decide⟩, by decide, by decide, by decide,
      by decide, by decide, by decide⟩
  -- the exported name and its provider
  obtain ⟨statement, hstatement, hkind, hsource, hnamed, hnone, list, hlist, hlistKind, specifier,
      hspecifier, hspecifierKind, provider, _, hname, hidentifier, htext, hexported⟩ :
      ∃ statement ∈ greeter.top.namedChildren, statement.kind = .exportStatement ∧
        statement.child? .source = none ∧
        (∀ child ∈ statement.children, child.kind ≠ .defaultKeyword) ∧
        statement.child? .declaration = none ∧
        ∃ list ∈ statement.namedChildren, list.kind = .exportClause ∧
          ∃ specifier ∈ list.namedChildren, specifier.kind = .exportSpecifier ∧
            ∃ provider ∈ specifier.children, specifier.child? .name = some provider ∧
              provider.kind = .identifier ∧ provider.text = "greet" ∧
              ((specifier.child? .localName).or (some provider)).bind propertyName? =
                some "hello" := by
    decide
  have hprovides : greeter.Provides "hello" provider :=
    .listed ⟨hstatement, hkind, hsource, hnamed⟩ hnone hlist hlistKind hspecifier hspecifierKind
      hname hidentifier hexported
  obtain ⟨himports, hown, _⟩ := callee?_of_imported_name none [greeted, greeter] greeted greeter
    "hello" provider hgreeted hgreeter rfl hprovides (by decide) (htext ▸ by decide)
  rw [htext] at himports hown
  obtain ⟨f, hf⟩ : ∃ f, greeter.topFunction? "greet" = some f :=
    Option.isSome_iff_exists.mp (by decide)
  have hprogram : greeted.top.kind = .program := rfl
  simp only [hf, hprogram, if_true] at himports hown
  -- the three calls
  obtain ⟨first, hfirst, hfirstModule, hfirstOnce, hfirstName, renamed, hrenamed, hrenamedStart,
      hrenamedKind, callee, hcallee, hrenamedCallee, hcalleeKind, hcalleeText, hcalleeTop⟩ :
      ∃ found ∈ greeted.imports, project.resolveModule? greeted found.module = some greeter ∧
        greeted.DeclaresOnce found.localName ∧ found.importedName = "hello" ∧
        ∃ call ∈ greeted.cursors, call.label.start = 61 ∧ call.kind = .callExpression ∧
          ∃ callee ∈ greeted.cursors, call.child? .function = some callee ∧
            callee.kind = .identifier ∧ callee.text = found.localName ∧ greeted.AtTop callee := by
    decide +kernel
  obtain ⟨second, hsecond, hsecondModule, hsecondOnce, hsecondName, member, hmember, hmemberStart,
      hmemberKind, access, _, receiver, hreceiver, hmemberCallee, haccessKind, haccessObject,
      hproperty, hreceiverKind, hreceiverText, hreceiverTop⟩ :
      ∃ found ∈ greeted.imports, project.resolveModule? greeted found.module = some greeter ∧
        greeted.DeclaresOnce found.localName ∧ found.importedName = wholeModule ∧
        ∃ call ∈ greeted.cursors, call.label.start = 66 ∧ call.kind = .callExpression ∧
          ∃ access ∈ greeted.cursors, ∃ receiver ∈ greeted.cursors,
            call.child? .function = some access ∧ access.kind = .memberExpression ∧
              access.child? .object = some receiver ∧
              (access.child? .property).bind propertyName? = some "hello" ∧
              receiver.kind = .identifier ∧ receiver.text = found.localName ∧
              greeted.AtTop receiver := by
    decide +kernel
  obtain ⟨own, hownMem, hownKind, name, hnameMem, hownCallee, hnameKind, hnameText, hnameTop⟩ :
      ∃ call ∈ greeter.cursors, call.kind = .callExpression ∧
        ∃ callee ∈ greeter.cursors, call.child? .function = some callee ∧
          callee.kind = .identifier ∧ callee.text = "greet" ∧ greeter.AtTop callee := by
    decide
  refine ⟨renamed, hrenamed, member, hmember, own, hownMem, hrenamedStart, hmemberStart, f, hf,
    ?_, ?_, ?_⟩
  · exact (himports first hfirst hfirstModule hfirstOnce).1 hfirstName renamed ⟨hrenamedKind,
      callee, hrenamedCallee, .of_mem_cursors hcallee, hcalleeKind, hcalleeText,
      hcalleeTop.unshadowed⟩
  · exact (himports second hsecond hsecondModule hsecondOnce).2 hsecondName member ⟨hmemberKind,
      access, receiver, hmemberCallee, haccessKind, haccessObject, hproperty,
      .of_mem_cursors hreceiver, hreceiverKind, hreceiverText, hreceiverTop.unshadowed⟩
  · exact hown (by decide) own ⟨hownKind, name, hownCallee, .of_mem_cursors hnameMem, hnameKind,
      hnameText, hnameTop.unshadowed⟩

/-- The file `export function h(a) {}`. -/
def exportingOne : SourceUnit :=
  let node (kind : Kind) (start stop : Nat) (field : Option Field) (children : List Node) : Node :=
    .mk ⟨kind, true, false, start, stop, ⟨0, start⟩, field⟩ children
  let name (start stop : Nat) (field : Option Field) := node .identifier start stop field []
  { path := "/app/src/x.ts"
    source := "export function h(a) \x7b\x7d\n".toUTF8.data
    root := node .program 0 24 none
      [node .exportStatement 0 23 none
        [node .functionDeclaration 7 23 (some .declaration)
          [name 16 17 (some .name),
            node (.other "formal_parameters") 17 20 (some .parameters)
              [node .requiredParameter 18 19 none [name 18 19 (some .pattern)]],
            node .statementBlock 21 23 (some .body) []]]] }

/-- A file that imports `h`, calls `h(1)` and goes on with more open brackets than the parser gets
over, so that it is no program. -/
def unfinished : SourceUnit :=
  let node (kind : Kind) (start stop : Nat) (point : Point) (field : Option Field)
      (children : List Node) : Node :=
    .mk ⟨kind, true, false, start, stop, point, field⟩ children
  { path := "/app/src/a.ts"
    source := ("import \x7b h \x7d from './x';\nh(1);\n" ++
      "((((((((((((((((((((((((((((((((((((((((").toUTF8.data
    root := node (.other "ERROR") 0 71 ⟨0, 0⟩ none
      [node .importStatement 0 24 ⟨0, 0⟩ none
        [node .importClause 7 12 ⟨0, 7⟩ none
          [node .namedImports 7 12 ⟨0, 7⟩ none
            [node .importSpecifier 9 10 ⟨0, 9⟩ none
              [node .identifier 9 10 ⟨0, 9⟩ (some .name) []]]],
          node .string 18 23 ⟨0, 18⟩ (some .source)
            [node .stringFragment 19 22 ⟨0, 19⟩ none []]],
        node (.other "expression_statement") 25 30 ⟨1, 0⟩ none
          [node .callExpression 25 29 ⟨1, 0⟩ none
            [node .identifier 25 26 ⟨1, 0⟩ (some .function) [],
              node .arguments 26 29 ⟨1, 1⟩ (some .arguments)
                [node .number 27 28 ⟨1, 2⟩ none []]]]] }

/-- In `unfinished` the call of the imported name `h` invokes nothing, although the name is declared
once, no inner scope declares it, and it is exported once as the function `h` of `exportingOne`. -/
theorem callee?_of_imported_name_unfinished :
    let project := ofUnits none [unfinished, exportingOne]
    (exportingOne.ExportsOnce "h" ∧ exportingOne.DeclaresOnce "h" ∧
      (exportingOne.topFunction? "h").isSome) ∧
    ∃ found ∈ unfinished.imports, found.importedName = "h" ∧
      project.resolveModule? unfinished found.module = some exportingOne ∧
      unfinished.DeclaresOnce found.localName ∧
      ∃ call, CallsName unfinished found.localName call ∧ project.callee? call = none := by
  intro project
  obtain ⟨found, hfound, hname, hmodule, honce, call, _, hkind, callee, hcallee, hfunction,
      hidentifier, htext, htop, hnone⟩ :
      ∃ found ∈ unfinished.imports, found.importedName = "h" ∧
        project.resolveModule? unfinished found.module = some exportingOne ∧
        unfinished.DeclaresOnce found.localName ∧
        ∃ call ∈ unfinished.cursors, call.kind = .callExpression ∧
          ∃ callee ∈ unfinished.cursors, call.child? .function = some callee ∧
            callee.kind = .identifier ∧ callee.text = found.localName ∧
            unfinished.AtTop callee ∧ project.callee? call = none := by
    decide +kernel
  exact ⟨⟨by decide, by decide, by decide⟩, found, hfound, hname, hmodule, honce, call,
    ⟨hkind, callee, hfunction, .of_mem_cursors hcallee, hidentifier, htext, htop.unshadowed⟩, hnone⟩

end Project

end MessageKeys
