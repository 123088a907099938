import MessageKeys.Proofs.Syntax.TopLevel
import MessageKeys.Proofs.Usage.Irrelevance

/-!
# Where the function of a call stands

The function that a call invokes stands in the file of the call, and then no other file is needed
to find it, or in a file that the calling file imports and that exports it by itself
(`Project.callee?_through_one_import`).  There is no second import on the way: an exported name that
is itself imported leads nowhere, since an import declares a name without saying what it is
(`Callee.bound_of_mem_imports`).
-/

namespace MessageKeys

open Syntax Cursor

/-- A statement at the top of the file exports the node under the name, and not from a further
file. -/
def Syntax.SourceUnit.ExportsOwn (unit : SourceUnit) (name : Text) (provider : Cursor) : Prop :=
  ∃ statement ∈ unit.top.namedChildren, statement.kind = .exportStatement ∧
    statement.child? .source = none ∧ (name, provider) ∈ statement.statementExports

namespace Callee

variable {project : Project} {c f : Cursor} {unit target : SourceUnit} {name : Text}

/-! ## What is found is a function -/

theorem isFunction_of_bound (h : bound c = .function f) : f.kind.isFunction = true := by
  unfold bound at h
  split at h
  · simp at h
  · rename_i parent _
    split at h
    · rename_i hparent
      rw [← Bound.function.inj h]
      revert hparent
      cases parent.kind <;>
        simp [Kind.isFunctionDeclaration, Kind.isNamedFunctionExpression, Kind.isFunction]
    · split at h
      · split at h
        · split at h
          · rename_i hvalue
            exact Bound.function.inj h ▸ hvalue
          · simp at h
        · simp at h
      · simp at h

theorem isFunction_of_memberFunction? (h : memberFunction? c name = some f) :
    f.kind.isFunction = true := by
  obtain ⟨member, _, h⟩ := List.exists_of_findSome?_eq_some h
  split at h
  · rename_i hkind
    split at h
    · rw [← Option.some.inj h, hkind]
      rfl
    · simp at h
  case h_5 => simp at h
  all_goals
    dsimp only at h
    split at h
    · split at h
      · rename_i htest
        rw [Bool.and_eq_true] at htest
        exact Option.some.inj h ▸ htest.2
      · simp at h
    · simp at h

/-! ## Imported and exported names -/

theorem of_imported? (h : imported? project c = some (target, name)) :
    ∃ found ∈ c.unit.imports, found.node.key = c.key ∧
      project.resolveModule? c.unit found.module = some target ∧ found.importedName = name := by
  unfold imported? at h
  split at h
  · rename_i found hfound
    obtain ⟨_, hresolved, heq⟩ := Option.map_eq_some_iff.mp h
    simp only [Prod.mk.injEq] at heq
    obtain ⟨rfl, rfl⟩ := heq
    exact ⟨found, List.mem_of_find?_eq_some hfound, by simpa using List.find?_some hfound,
      hresolved, rfl⟩
  · simp at h

/-- Only a function or a variable says what its name stands for. -/
theorem bound_eq_elsewhere {parent : Cursor} (hparent : c.parent? = some parent)
    (hfunction : parent.kind.isFunction = false) (hvariable : parent.kind ≠ .variableDeclarator) :
    bound c = .elsewhere := by
  have hname : (parent.kind.isFunctionDeclaration || parent.kind.isNamedFunctionExpression) =
      false := by
    revert hfunction
    cases parent.kind <;>
      simp [Kind.isFunctionDeclaration, Kind.isNamedFunctionExpression, Kind.isFunction]
  simp [bound, hparent, hname, hvariable]

/-- An import does not say what its name stands for. -/
theorem bound_of_mem_imports {found : ImportBinding} (h : found ∈ unit.imports) :
    bound found.node = .elsewhere := by
  obtain ⟨part, hparent, hkind⟩ := SourceUnit.parent?_of_mem_imports h
  rcases hkind with hkind | hkind | hkind <;>
    exact bound_eq_elsewhere hparent (by rw [hkind]; rfl) (by simp [hkind])

theorem exportsOwn_of_mem_exports {provider : Cursor} (h : (name, provider) ∈ unit.exports) :
    unit.ExportsOwn name provider := by
  have hentry := (Assoc.mem_of_mem_foldl_insertNew h).resolve_right List.not_mem_nil
  obtain ⟨statement, hstatement, hentry⟩ := List.mem_flatMap.mp hentry
  obtain ⟨hmem, hkind⟩ := List.mem_filter.mp hstatement
  refine ⟨statement, hmem, of_decide_eq_true hkind, ?_, hentry⟩
  -- a statement with a source exports nothing here
  unfold statementExports at hentry
  split at hentry
  · simp at hentry
  · rename_i hsource
    exact Option.not_isSome_iff_eq_none.mp hsource

/-- The file exports the function under the name by itself: the exported node is the function, or it
is a name whose declaration in the file is no import and says what function it is. -/
def OwnFunction (target : SourceUnit) (name : Text) (f : Cursor) : Prop :=
  ∃ provider, target.ExportsOwn name provider ∧
    (provider = f ∨ ∃ declaration,
      (ScopeIndex.ofUnit target).declarationOf? provider = some declaration ∧
        (∀ found ∈ target.imports, found.node ≠ declaration) ∧ bound declaration = .function f)

theorem ownFunction_of_exported? (hproject : project.Coherent)
    (h : exported? project target name = some f) :
    OwnFunction target name f ∧ f.kind.isFunction = true := by
  unfold exported? at h
  rw [hproject.index_eq] at h
  split at h
  · simp at h
  · rename_i provider hprovider
    have hown := exportsOwn_of_mem_exports (Assoc.mem_of_get? hprovider)
    split at h
    · rename_i hfunction
      obtain rfl := Option.some.inj h
      exact ⟨⟨provider, hown, Or.inl rfl⟩, hfunction⟩
    · split at h
      · split at h
        · rename_i declaration hdeclaration
          split at h
          · rename_i g hbound
            obtain rfl := Option.some.inj h
            refine ⟨⟨provider, hown, Or.inr ⟨declaration, hdeclaration, ?_, hbound⟩⟩,
              isFunction_of_bound hbound⟩
            rintro found hfound rfl
            rw [bound_of_mem_imports hfound] at hbound
            contradiction
          · simp at h
        · simp at h
      · simp at h

/-! ## The two ways to a function -/

/-- The name in a call that an import may give a meaning to, with the imported and the exported
name that a function is then looked up by: the callee itself, or the receiver of a member access if
a whole file is imported. -/
inductive Through (call : Cursor) : Cursor → Text → Text → Prop
  | callee {name : Cursor} {exportedName : Text} (hcallee : call.child? .function = some name) :
      Through call name exportedName exportedName
  | receiver {access name : Cursor} {exportedName : Text}
      (hcallee : call.child? .function = some access) (hkind : access.kind = .memberExpression)
      (hname : access.child? .object = some name)
      (hproperty : (access.child? .property).bind propertyName? = some exportedName) :
      Through call name wholeModule exportedName

theorem Through.in_unit {call : Cursor} {importedName exportedName : Text}
    (h : Through call c importedName exportedName) (hcall : In call.unit call) :
    In call.unit c := by
  cases h with
  | callee hcallee => exact hcall.child? hcallee
  | receiver hcallee _ hname _ => exact (hcall.child? hcallee).child? hname

/-- The function is found through an import of the name `name`. -/
def Imports (project : Project) (name : Cursor) (importedName exportedName : Text) (f : Cursor) :
    Prop :=
  ∃ declaration target, (project.index name.unit).declarationOf? name = some declaration ∧
    imported? project declaration = some (target, importedName) ∧
    exported? project target exportedName = some f

theorem of_named? (hproject : project.Coherent) (h : named? project c = some f) :
    (named? (Project.empty none) c = some f ∧ f.kind.isFunction = true) ∨
      ∃ exportedName, Imports project c exportedName exportedName f := by
  unfold named? at h
  split at h
  · simp at h
  · rename_i declaration hdeclaration
    split at h
    · rename_i g hbound
      obtain rfl := Option.some.inj h
      rw [hproject.index_eq] at hdeclaration
      refine Or.inl ⟨?_, isFunction_of_bound hbound⟩
      unfold named?
      simp only [(Project.coherent_empty none).index_eq, hdeclaration, hbound]
    · simp at h
    · split at h
      · rename_i target exportedName himported
        exact Or.inr ⟨exportedName, declaration, target, hdeclaration, himported, h⟩
      · simp at h

theorem of_member? (hproject : project.Coherent) (h : member? project c = some f) :
    (member? (Project.empty none) c = some f ∧ f.kind.isFunction = true) ∨
      ∃ receiver exportedName, c.child? .object = some receiver ∧
        (c.child? .property).bind propertyName? = some exportedName ∧
        Imports project receiver wholeModule exportedName f := by
  unfold member? at h
  split at h
  · rename_i receiver property hreceiver hproperty
    split at h
    · -- a member of the class around `this`
      rename_i hthis
      refine Or.inl ⟨?_, ?_⟩
      · unfold member?
        simp only [hreceiver, hproperty, hthis, if_true]
        exact h
      · split at h
        · exact isFunction_of_memberFunction? h
        · simp at h
    · rename_i hthis
      split at h
      · rename_i hreference
        split at h
        · simp at h
        · rename_i declaration hdeclaration
          split at h
          · rename_i container hcontainer
            rw [hproject.index_eq] at hdeclaration
            refine Or.inl ⟨?_, isFunction_of_memberFunction? h⟩
            unfold member?
            simp only [hreceiver, hproperty, hthis, hreference, if_true, if_false,
              (Project.coherent_empty none).index_eq, hdeclaration, hcontainer]
            exact h
          · split at h
            · rename_i target importedName himported
              split at h
              · rename_i hwhole
                exact Or.inr ⟨receiver, property, hreceiver, hproperty, declaration, target,
                  hdeclaration, hwhole ▸ himported, h⟩
              · simp at h
            · simp at h
      · simp at h
  · simp at h

end Callee

namespace Project

open Callee

variable {project : Project} {call f : Cursor}

/-- A call leads to a function that its own file names, or through an import. -/
theorem of_callee? (hproject : project.Coherent) (h : project.callee? call = some f) :
    ((empty none).callee? call = some f ∧ f.kind.isFunction = true) ∨
      ∃ name importedName exportedName, Through call name importedName exportedName ∧
        Callee.Imports project name importedName exportedName f := by
  unfold callee? at h
  split at h
  · simp at h
  · rename_i callee hcallee
    split at h
    · rename_i hreference
      rcases of_named? hproject h with ⟨hnamed, hfunction⟩ | ⟨exportedName, himports⟩
      · refine Or.inl ⟨?_, hfunction⟩
        simp only [callee?, hcallee, hreference, if_true, hnamed]
      · exact Or.inr ⟨callee, exportedName, exportedName, .callee hcallee, himports⟩
    · split at h
      · rename_i hkind
        rcases of_member? hproject h with
          ⟨hmember, hfunction⟩ | ⟨receiver, exportedName, hreceiver, hproperty, himports⟩
        · refine Or.inl ⟨?_, hfunction⟩
          simp [callee?, hcallee, hkind, Kind.isReference, hmember]
        · exact Or.inr ⟨receiver, wholeModule, exportedName,
            .receiver hcallee hkind hreceiver hproperty, himports⟩
      · simp at h

/-- The function that a call invokes is a function of the calling file, found without any other
file, or it is exported by a file that an import statement of the calling file names: the callee, or
the receiver of a member access, means what this statement imports, and the other file exports the
function by itself, without an import and not from a further file. -/
theorem callee?_through_one_import (root : Option Text) (units : List SourceUnit) (call f : Cursor)
    (hcall : In call.unit call) (h : (ofUnits root units).callee? call = some f) :
    f.kind.isFunction = true ∧ In f.unit f ∧
      ((f.unit = call.unit ∧ (empty none).callee? call = some f) ∨
        ∃ name declaration found importedName exportedName,
          Through call name importedName exportedName ∧
          (ScopeIndex.ofUnit call.unit).declarationOf? name = some declaration ∧
          found ∈ call.unit.imports ∧ found.node.key = declaration.key ∧
          found.importedName = importedName ∧
          (ofUnits root units).resolveModule? call.unit found.module = some f.unit ∧
          OwnFunction f.unit exportedName f) := by
  have hproject := coherent_ofUnits root units
  -- the files of a result are told apart by following the nodes in one file at a time
  rcases of_callee? hproject h with
    ⟨hlocal, hfunction⟩ | ⟨name, importedName, exportedName, hthrough, himports⟩
  · obtain ⟨hunit, hin⟩ : Among [call.unit] f :=
      among_of_callee? (coherent_empty none) (List.nil_subset _)
        ⟨List.mem_singleton_self _, hcall⟩ hlocal
    exact ⟨hfunction, hin, Or.inl ⟨List.mem_singleton.mp hunit, hlocal⟩⟩
  · obtain ⟨declaration, target, hdeclaration, himported, hexported⟩ := himports
    obtain ⟨htarget, hin⟩ : Among [target] f :=
      among_of_exported? hproject (List.mem_singleton_self _) hexported
    obtain rfl := List.mem_singleton.mp htarget
    obtain ⟨hown, hfunction⟩ := ownFunction_of_exported? hproject hexported
    have hname := hthrough.in_unit hcall
    have hdeclared : Among [call.unit] declaration :=
      Among.declarationOf? hproject (.of_in (List.mem_singleton_self _) hname) hdeclaration
    obtain ⟨found, hfound, hkey, hresolved, himportedName⟩ := of_imported? himported
    rw [List.mem_singleton.mp hdeclared.1] at hfound hresolved
    rw [hproject.index_eq, hname.unit_eq] at hdeclaration
    exact ⟨hfunction, hin, Or.inr ⟨name, declaration, found, importedName, exportedName, hthrough,
      hdeclaration, hfound, hkey, himportedName, hresolved, hown⟩⟩

/-- The call of `show` in `importing` invokes the function that `exporting` declares under this
name. -/
theorem callee?_through_one_import_show :
    let project := ofUnits none [Resolver.importing, Resolver.exporting]
    ∃ call ∈ Resolver.importing.cursors, ∃ f ∈ Resolver.exporting.cursors,
      project.callee? call = some f ∧ f.unit ≠ call.unit ∧ f.kind.isFunction = true ∧
      ∃ exportedName, OwnFunction f.unit exportedName f := by
  intro project
  obtain ⟨call, hmem, f, hf, hfound, hunit, hcallUnit⟩ :
      ∃ call ∈ Resolver.importing.cursors, ∃ f ∈ Resolver.exporting.cursors,
        project.callee? call = some f ∧ f.unit ≠ call.unit ∧
          call.unit = Resolver.importing := by
    decide +kernel
  have hcall : In call.unit call := hcallUnit ▸ In.of_mem_cursors hmem
  obtain ⟨hfunction, _, ⟨hlocal, _⟩ | ⟨_, _, _, _, exportedName, _, _, _, _, _, _, hown⟩⟩ :=
    callee?_through_one_import none [Resolver.importing, Resolver.exporting] call f hcall hfound
  · exact absurd hlocal hunit
  · exact ⟨call, hmem, f, hf, hfound, hunit, hfunction, exportedName, hown⟩

end Project

end MessageKeys
