import MessageKeys.Proofs.Syntax.Places
import MessageKeys.Syntax.Scope

/-!
# Where a name is declared

A node declares the names in its own pattern, parameter list or import clause, in a scope
that it finds around itself.  `Declares` says once which names and scopes these are; every
later fact about the index of a file is read off from it.

The main statement is `declaringScope?_of_declares`: the scope in which a name is declared
can be told from the surroundings of the name alone.  So a name that two nodes declare is
declared in one scope, and the scope that the index remembers last for a name is the only
one.  It needs that a parameter list opens no scope of its own.
-/

namespace MessageKeys.Syntax

/-- The kinds of nodes between a declaration and the names in its pattern. -/
def Kind.isPattern : Kind → Bool
  | pairPattern | objectAssignmentPattern | assignmentPattern | requiredParameter
  | optionalParameter | objectPattern | arrayPattern | restPattern => true
  | _ => false

namespace Cursor

/-! ## Names in a pattern -/

/-- The nodes directly below a pattern in which it goes on. -/
def patternParts (c : Cursor) : List Cursor :=
  match c.kind with
  | .pairPattern => (c.child? .value).toList
  | .objectAssignmentPattern | .assignmentPattern => (c.child? .left).toList
  | .requiredParameter | .optionalParameter => (c.child? .pattern).toList
  | .objectPattern | .arrayPattern | .restPattern => c.namedChildren
  | _ => []

theorem patternField_eq (unit : SourceUnit) (above : List Node) (field : Field)
    (nodes : List Node) :
    patternField unit above field nodes =
      (nodes.find? fun node => decide (node.label.field = some field)).toList.flatMap
        (patternNode unit above) := by
  induction nodes with
  | nil => rfl
  | cons first rest ih =>
      by_cases hfirst : first.label.field = some field <;> simp [patternField, hfirst, ih]

theorem patternNodes_eq (unit : SourceUnit) (above nodes : List Node) :
    patternNodes unit above nodes =
      (nodes.filter fun node => node.label.named).flatMap (patternNode unit above) := by
  induction nodes with
  | nil => rfl
  | cons first rest ih => by_cases hnamed : first.label.named <;> simp [patternNodes, hnamed, ih]

theorem flatMap_child? (c : Cursor) (field : Field) :
    (c.child? field).toList.flatMap patternBindings =
      patternField c.unit (c.node :: c.above) field c.node.children := by
  rw [patternField_eq, child?, children, List.find?_map]
  cases hfound : c.node.children.find? ((fun child => decide (child.label.field = some field)) ∘
      c.below) with
  | none =>
      have hnone : c.node.children.find? (fun node => decide (node.label.field = some field)) =
          none := hfound
      simp [hnone]
  | some node =>
      have hsome : c.node.children.find? (fun node => decide (node.label.field = some field)) =
          some node := hfound
      simp [hsome, patternBindings, below]

theorem flatMap_namedChildren (c : Cursor) :
    c.namedChildren.flatMap patternBindings =
      patternNodes c.unit (c.node :: c.above) c.node.children := by
  rw [patternNodes_eq, namedChildren, children, List.filter_map, List.flatMap_map]
  rfl

/-- An identifier binds itself, any other pattern what its parts bind. -/
theorem patternBindings_eq (c : Cursor) :
    c.patternBindings =
      if c.kind = .identifier ∨ c.kind = .shorthandPropertyIdentifierPattern then [c]
      else c.patternParts.flatMap patternBindings := by
  have hvalue := c.flatMap_child? .value
  have hleft := c.flatMap_child? .left
  have hpattern := c.flatMap_child? .pattern
  have hnamed := c.flatMap_namedChildren
  obtain ⟨unit, ⟨⟨kind, named, missing, start, stop, field⟩, nodes⟩, above⟩ := c
  cases kind <;>
    simp [patternBindings, patternNode, patternParts, Cursor.kind, label, Node.label] <;>
    first | exact hvalue.symm | exact hleft.symm | exact hpattern.symm | exact hnamed.symm

theorem isPattern_of_mem_patternParts {c part : Cursor} (h : part ∈ c.patternParts) :
    c.kind.isPattern = true := by
  unfold patternParts at h
  split at h <;> simp_all [Kind.isPattern]

theorem mem_children_of_mem_patternParts {c part : Cursor} (h : part ∈ c.patternParts) :
    part ∈ c.children := by
  have hrole : ∀ field, part ∈ (c.child? field).toList → part ∈ c.children := fun field hpart =>
    mem_children_of_child? (Option.mem_toList.mp hpart)
  unfold patternParts at h
  split at h
  all_goals first
    | exact hrole _ h
    | exact (mem_namedChildren.mp h).1
    | simp at h

/-- The node that a pattern belongs to: the nearest one above that is no pattern. -/
def patternOwner? (c : Cursor) : Option Cursor :=
  c.ancestor? fun kind => !kind.isPattern

theorem patternOwner?_of_parent? {c parent : Cursor} (h : c.parent? = some parent) :
    c.patternOwner? = if parent.kind.isPattern then parent.patternOwner? else some parent := by
  obtain ⟨unit, node, above⟩ := c
  cases above with
  | nil => simp [parent?] at h
  | cons first rest =>
      have hparent : ⟨unit, first, rest⟩ = parent := by simpa [parent?] using h
      subst hparent
      cases hpattern : first.label.kind.isPattern <;>
        simp [patternOwner?, ancestor?, nearest?, kind, label, hpattern]

theorem patternOwner?_of_mem_children {c d : Cursor} (h : d ∈ c.children)
    (hkind : c.kind.isPattern = false) : d.patternOwner? = some c := by
  rw [patternOwner?_of_parent? (parent?_of_mem_children h), hkind]
  rfl

theorem patternOwner?_of_mem_patternParts {c part : Cursor} (h : part ∈ c.patternParts) :
    part.patternOwner? = c.patternOwner? := by
  rw [patternOwner?_of_parent? (parent?_of_mem_children (mem_children_of_mem_patternParts h)),
    isPattern_of_mem_patternParts h]
  rfl

/-- A name of a pattern stands at or below it, in the same pattern. -/
theorem of_mem_patternBindings {c d : Cursor} (h : d ∈ c.patternBindings) :
    Beneath c d ∧ d.patternOwner? = c.patternOwner? := by
  induction c using induction_down with
  | h c ih =>
      rw [patternBindings_eq] at h
      split at h
      · rw [List.mem_singleton.mp h]
        exact ⟨.here, rfl⟩
      · obtain ⟨part, hpart, hd⟩ := List.mem_flatMap.mp h
        have hchild := mem_children_of_mem_patternParts hpart
        obtain ⟨hbelow, howner⟩ := ih part hchild hd
        exact ⟨(Beneath.here.of_mem_children hchild).trans hbelow,
          howner.trans (patternOwner?_of_mem_patternParts hpart)⟩

/-! ## Parameters -/

theorem of_parameterPattern? {parameter pattern : Cursor}
    (h : parameter.parameterPattern? = some pattern) :
    Beneath parameter pattern ∧ pattern.patternOwner? = parameter.patternOwner? := by
  -- each of the two steps inward goes to a part of a pattern
  have hstep : ∀ {c d : Cursor} {field : Field}, c.kind.isPattern = true →
      c.child? field = some d → Beneath c d ∧ d.patternOwner? = c.patternOwner? := by
    intro c d field hkind hd
    refine ⟨Beneath.here.child? hd, ?_⟩
    rw [patternOwner?_of_parent? (parent?_of_child? hd), hkind]
    rfl
  have houter : ∀ found,
      (if parameter.kind.isTypedParameter then parameter.child? .pattern else some parameter) =
        some found → Beneath parameter found ∧ found.patternOwner? = parameter.patternOwner? := by
    intro found hfound
    split at hfound
    · rename_i htyped
      apply hstep _ hfound
      unfold Kind.isTypedParameter at htyped
      split at htyped <;> simp_all [Kind.isPattern]
    · rw [← Option.some.inj hfound]
      exact ⟨.here, rfl⟩
  unfold parameterPattern? at h
  simp only at h
  split at h
  · rename_i found hfound
    obtain ⟨hbelow, howner⟩ := houter found hfound
    split at h
    · rename_i hkind
      obtain ⟨hleft, hleftOwner⟩ := hstep (by rw [hkind]; rfl) h
      exact ⟨hbelow.trans hleft, hleftOwner.trans howner⟩
    · rw [← Option.some.inj h]
      exact ⟨hbelow, howner⟩
  · simp at h

/-- A parameter stands directly below its function or in the function's parameter list. -/
theorem of_mem_functionParameters {function parameter : Cursor}
    (h : parameter ∈ function.functionParameters) :
    function.child? .parameter = some parameter ∨
      ∃ list, function.child? .parameters = some list ∧ parameter ∈ list.namedChildren := by
  unfold functionParameters at h
  split at h
  · rename_i single hsingle
    rw [List.mem_singleton.mp h]
    exact Or.inl hsingle
  · split at h
    · rename_i list hlist
      exact Or.inr ⟨list, hlist, (List.mem_filter.mp h).1⟩
    · simp at h

theorem beneath_of_mem_functionParameters {function parameter : Cursor}
    (h : parameter ∈ function.functionParameters) : Beneath function parameter := by
  rcases of_mem_functionParameters h with hsingle | ⟨list, hlist, hparameter⟩
  · exact Beneath.here.child? hsingle
  · exact (Beneath.here.child? hlist).of_mem_namedChildren hparameter

theorem mem_parameterBindings {function binding : Cursor} :
    binding ∈ function.parameterBindings ↔ ∃ parameter ∈ function.functionParameters,
      ∃ pattern, parameter.parameterPattern? = some pattern ∧
        binding ∈ pattern.patternBindings := by
  rw [parameterBindings, List.mem_flatMap]
  refine exists_congr fun parameter => and_congr_right fun _ => ?_
  cases parameter.parameterPattern? <;> simp

theorem mem_bindingsOf {c binding : Cursor} {field : Field} :
    binding ∈ c.bindingsOf field ↔
      ∃ pattern, c.child? field = some pattern ∧ binding ∈ pattern.patternBindings := by
  unfold bindingsOf
  cases c.child? field <;> simp

/-- A name in a function's parameters belongs to one of them. -/
theorem of_mem_parameterBindings {function binding : Cursor}
    (h : binding ∈ function.parameterBindings) :
    ∃ parameter ∈ function.functionParameters,
      Beneath parameter binding ∧ binding.patternOwner? = parameter.patternOwner? := by
  obtain ⟨parameter, hparameter, pattern, hpattern, hbinding⟩ := mem_parameterBindings.mp h
  obtain ⟨habove, howner⟩ := of_parameterPattern? hpattern
  obtain ⟨hbelow, hbindingOwner⟩ := of_mem_patternBindings hbinding
  exact ⟨parameter, hparameter, habove.trans hbelow, hbindingOwner.trans howner⟩

/-- The name of a function is none of its parameters. -/
theorem name_not_mem_parameterBindings {function name : Cursor}
    (hname : function.child? .name = some name) : name ∉ function.parameterBindings := by
  intro hmem
  have hnameDepth := depth_eq_of_parent? (parent?_of_child? hname)
  obtain ⟨parameter, hparameter, hbelow, _⟩ := of_mem_parameterBindings hmem
  rcases of_mem_functionParameters hparameter with hsingle | ⟨list, hlist, hinList⟩
  · have hparameterDepth := depth_eq_of_parent? (parent?_of_child? hsingle)
    rcases hbelow.eq_or_mem_lineage with rfl | habove
    · have hfield := (field_of_child? hname).symm.trans (field_of_child? hsingle)
      simp at hfield
    · have hlt := depth_lt_of_mem_lineage habove
      omega
  · -- a parameter of a list stands two levels below the function, its name only one
    have hlistDepth := depth_eq_of_parent? (parent?_of_child? hlist)
    have hparameterDepth :=
      depth_eq_of_parent? (parent?_of_mem_children (mem_namedChildren.mp hinList).1)
    have hle := hbelow.depth_le
    omega

/-! ## Imported names -/

/-- An imported name stands directly below a part of an import clause, and what is above the
part is no function. -/
theorem of_mem_statementBindings {statement : Cursor} {found : ImportBinding}
    (hkind : statement.kind = .importStatement) (h : found ∈ statement.statementBindings) :
    Beneath statement found.node ∧ ∃ part above : Cursor, found.node ∈ part.children ∧
      part.parent? = some above ∧ above.kind.isFunction = false ∧
      (part.kind = .importClause ∨ part.kind = .namespaceImport ∨
        part.kind = .importSpecifier) := by
  unfold statementBindings at h
  split at h
  · obtain ⟨clause, hclause, h⟩ := List.mem_flatMap.mp h
    obtain ⟨hclauseNamed, hclauseKind⟩ := List.mem_filter.mp hclause
    obtain ⟨part, hpart, h⟩ := List.mem_flatMap.mp h
    have hclauseKind : clause.kind = .importClause := by simpa using hclauseKind
    have hclauseIn := Beneath.here.of_mem_namedChildren hclauseNamed
    have hpartIn := hclauseIn.of_mem_namedChildren hpart
    have hclauseParent := parent?_of_mem_children (mem_namedChildren.mp hclauseNamed).1
    have hpartParent := parent?_of_mem_children (mem_namedChildren.mp hpart).1
    unfold partBindings at h
    split at h
    · -- a default import
      rw [List.mem_singleton.mp h]
      exact ⟨hpartIn, clause, statement, (mem_namedChildren.mp hpart).1, hclauseParent,
        by rw [hkind]; rfl, Or.inl hclauseKind⟩
    · -- a whole file
      rename_i hpartKind
      obtain ⟨name, hname, rfl⟩ := List.mem_map.mp h
      have hnameNamed := (List.mem_filter.mp hname).1
      exact ⟨hpartIn.of_mem_namedChildren hnameNamed, part, clause,
        (mem_namedChildren.mp hnameNamed).1, hpartParent, by rw [hclauseKind]; rfl,
        Or.inr (Or.inl hpartKind)⟩
    · -- a named import
      rename_i hpartKind
      obtain ⟨specifier, hspecifier, hbinding⟩ := List.mem_filterMap.mp h
      obtain ⟨hspecifierNamed, hspecifierKind⟩ := List.mem_filter.mp hspecifier
      have hbound : found.node ∈ specifier.children := by
        unfold specifierBinding? at hbinding
        simp only at hbinding
        split at hbinding
        · rename_i bound imported hlocal _
          rw [← Option.some.inj hbinding]
          cases halias : specifier.child? .localName with
          | none => exact mem_children_of_child? (by simpa [halias] using hlocal)
          | some other =>
              have heq : other = bound := by simpa [halias] using hlocal
              exact heq ▸ mem_children_of_child? halias
        · simp at hbinding
      exact ⟨(hpartIn.of_mem_namedChildren hspecifierNamed).of_mem_children hbound, specifier,
        part, hbound, parent?_of_mem_children (mem_namedChildren.mp hspecifierNamed).1,
        by rw [hpartKind]; rfl, Or.inr (Or.inr (by simpa using hspecifierKind))⟩
    · simp at h
  · simp at h

/-! ## Declarations of a node -/

/-- The scope of the names that a declarator declares. -/
def declaratorScope? (c : Cursor) : Option Cursor :=
  if c.parent?.any fun parent => decide (parent.kind = .variableDeclaration) then c.hoistScope?
  else c.enclosingScope?

/-- The node declares a name in a scope. -/
inductive Declares (c : Cursor) : Cursor → Cursor → Prop
  | declarator {scope binding : Cursor} (hkind : c.kind = .variableDeclarator)
      (hscope : c.declaratorScope? = some scope) (hbinding : binding ∈ c.bindingsOf .name) :
      Declares c scope binding
  | name {scope binding : Cursor}
      (hkind : c.kind.isFunctionDeclaration = true ∨ c.kind = .classDeclaration)
      (hscope : c.enclosingScope? = some scope) (hname : c.child? .name = some binding) :
      Declares c scope binding
  | innerName {binding : Cursor} (hkind : c.kind.isNamedFunctionExpression = true)
      (hname : c.child? .name = some binding) : Declares c c binding
  | parameter {binding : Cursor} (hkind : c.kind.isFunction = true)
      (hbinding : binding ∈ c.parameterBindings) : Declares c c binding
  | caught {binding : Cursor} (hkind : c.kind = .catchClause)
      (hbinding : binding ∈ c.bindingsOf .parameter) : Declares c c binding
  | loop {binding : Cursor} (hkind : c.kind = .forInStatement) (hrole : (c.child? .kind).isSome)
      (hbinding : binding ∈ c.bindingsOf .left) : Declares c c binding
  | imported {found : ImportBinding} (hkind : c.kind = .importStatement)
      (hfound : found ∈ c.statementBindings) : Declares c c.unit.top found.node

theorem mem_all {scope : Option Cursor} {bindings : List Cursor} {d : Declaration} :
    d ∈ Declaration.all scope bindings ↔
      ∃ owner binding, scope = some owner ∧ binding ∈ bindings ∧
        Declaration.of owner binding = d := by
  cases scope <;> simp [Declaration.all]

/-- What a node declares, it declares under the name's own text. -/
theorem of_mem_declarations {c : Cursor} {d : Declaration} (h : d ∈ c.declarations) :
    Declares c d.scope d.binding ∧ d.name = d.binding.text := by
  have hall : ∀ {scope : Option Cursor} {bindings : List Cursor},
      d ∈ Declaration.all scope bindings →
      (∀ owner binding, scope = some owner → binding ∈ bindings → Declares c owner binding) →
      Declares c d.scope d.binding ∧ d.name = d.binding.text := by
    intro scope bindings hd hdeclares
    obtain ⟨owner, binding, hscope, hbinding, rfl⟩ := mem_all.mp hd
    exact ⟨hdeclares owner binding hscope hbinding, rfl⟩
  -- what functions have in common: parameters, and a name outside or inside
  have hparameter : c.kind.isFunction = true →
      d ∈ Declaration.all (some c) c.parameterBindings →
      Declares c d.scope d.binding ∧ d.name = d.binding.text := fun hkind hd =>
    hall hd fun _ _ hscope hbinding => Option.some.inj hscope ▸ .parameter hkind hbinding
  have houter : c.kind.isFunctionDeclaration = true ∨ c.kind = .classDeclaration →
      d ∈ Declaration.all c.enclosingScope? (c.child? .name).toList →
      Declares c d.scope d.binding ∧ d.name = d.binding.text := fun hkind hd =>
    hall hd fun _ _ hscope hbinding => .name hkind hscope (Option.mem_toList.mp hbinding)
  have hinner : c.kind.isNamedFunctionExpression = true →
      d ∈ Declaration.all (some c) (c.child? .name).toList →
      Declares c d.scope d.binding ∧ d.name = d.binding.text := fun hkind hd =>
    hall hd fun _ _ hscope hbinding =>
      Option.some.inj hscope ▸ .innerName hkind (Option.mem_toList.mp hbinding)
  unfold declarations at h
  split at h
  case h_1 hkind => exact hall h fun _ _ hscope hbinding => .declarator hkind hscope hbinding
  case h_2 hkind | h_3 hkind =>
    rcases List.mem_append.mp h with h | h
    · exact houter (Or.inl (by rw [hkind]; rfl)) h
    · exact hparameter (by rw [hkind]; rfl) h
  case h_4 hkind | h_5 hkind | h_6 hkind =>
    rcases List.mem_append.mp h with h | h
    · exact hinner (by rw [hkind]; rfl) h
    · exact hparameter (by rw [hkind]; rfl) h
  case h_7 hkind | h_8 hkind => exact hparameter (by rw [hkind]; rfl) h
  case h_9 hkind => exact houter (Or.inr hkind) h
  case h_10 hkind =>
    exact hall h fun _ _ hscope hbinding => Option.some.inj hscope ▸ .caught hkind hbinding
  case h_11 hkind =>
    split at h
    · rename_i hrole
      exact hall h fun _ _ hscope hbinding => Option.some.inj hscope ▸ .loop hkind hrole hbinding
    · simp at h
  case h_12 hkind =>
    refine hall h fun _ _ hscope hbinding => ?_
    obtain ⟨found, hfound, rfl⟩ := List.mem_map.mp hbinding
    exact Option.some.inj hscope ▸ .imported hkind hfound
  case h_13 => simp at h

/-- What a node declares is among its declarations. -/
theorem Declares.mem_declarations {c scope binding : Cursor} (h : Declares c scope binding) :
    Declaration.of scope binding ∈ c.declarations := by
  unfold declarations
  cases h with
  | declarator hkind hscope hbinding =>
      rw [hkind]
      exact mem_all.mpr ⟨scope, binding, hscope, hbinding, rfl⟩
  | name hkind hscope hname =>
      have hmem : Declaration.of scope binding ∈
          Declaration.all c.enclosingScope? (c.child? .name).toList :=
        mem_all.mpr ⟨scope, binding, hscope, Option.mem_toList.mpr hname, rfl⟩
      revert hkind
      cases c.kind <;> simp [Kind.isFunctionDeclaration, hmem]
  | innerName hkind hname =>
      have hmem : Declaration.of c binding ∈ Declaration.all (some c) (c.child? .name).toList :=
        mem_all.mpr ⟨c, binding, rfl, Option.mem_toList.mpr hname, rfl⟩
      revert hkind
      cases c.kind <;> simp [Kind.isNamedFunctionExpression, hmem]
  | parameter hkind hbinding =>
      have hmem : Declaration.of c binding ∈ Declaration.all (some c) c.parameterBindings :=
        mem_all.mpr ⟨c, binding, rfl, hbinding, rfl⟩
      revert hkind
      cases c.kind <;> simp [Kind.isFunction, hmem]
  | caught hkind hbinding =>
      rw [hkind]
      exact mem_all.mpr ⟨c, binding, rfl, hbinding, rfl⟩
  | loop hkind hrole hbinding =>
      simp only [hkind, hrole, if_true]
      exact mem_all.mpr ⟨c, binding, rfl, hbinding, rfl⟩
  | imported hkind hfound =>
      rw [hkind]
      exact mem_all.mpr ⟨c.unit.top, _, rfl, List.mem_map_of_mem hfound, rfl⟩

/-- A declared name stands at or below the node that declares it. -/
theorem Declares.beneath {c scope binding : Cursor} (h : Declares c scope binding) :
    Beneath c binding := by
  have hpattern : ∀ {field : Field}, binding ∈ c.bindingsOf field → Beneath c binding := by
    intro field hbinding
    obtain ⟨pattern, hpattern, hmem⟩ := mem_bindingsOf.mp hbinding
    exact (Beneath.here.child? hpattern).trans (of_mem_patternBindings hmem).1
  cases h with
  | declarator _ _ hbinding => exact hpattern hbinding
  | name _ _ hname => exact Beneath.here.child? hname
  | innerName _ hname => exact Beneath.here.child? hname
  | parameter _ hbinding =>
      obtain ⟨parameter, hparameter, hbelow, _⟩ := of_mem_parameterBindings hbinding
      exact (beneath_of_mem_functionParameters hparameter).trans hbelow
  | caught _ hbinding => exact hpattern hbinding
  | loop _ _ hbinding => exact hpattern hbinding
  | imported hkind hfound => exact (of_mem_statementBindings hkind hfound).1

theorem mem_lineage_of_declaratorScope? {c scope : Cursor} (h : c.declaratorScope? = some scope) :
    scope ∈ c.lineage := by
  unfold declaratorScope? at h
  split at h
  · exact mem_lineage_of_ancestor? h
  · exact mem_lineage_of_ancestor? h

/-- The scope of a declared name is the declaring node, one around it, or the whole file. -/
theorem Declares.scope_cases {c scope binding : Cursor} (h : Declares c scope binding) :
    scope = c ∨ scope ∈ c.lineage ∨ scope = c.unit.top := by
  cases h with
  | declarator _ hscope _ => exact Or.inr (Or.inl (mem_lineage_of_declaratorScope? hscope))
  | name _ hscope _ => exact Or.inr (Or.inl (mem_lineage_of_ancestor? hscope))
  | innerName _ _ => exact Or.inl rfl
  | parameter _ _ => exact Or.inl rfl
  | caught _ _ => exact Or.inl rfl
  | loop _ _ _ => exact Or.inl rfl
  | imported _ _ => exact Or.inr (Or.inr rfl)

/-! ## The scope of a name from its surroundings -/

/-- The scope that owns a name, told from what is around the name. -/
def declaringScope? (binding : Cursor) : Option Cursor :=
  match binding.patternOwner? with
  | none => none
  | some owner =>
      if owner.kind = .variableDeclarator then owner.declaratorScope?
      else if owner.kind = .classDeclaration then owner.enclosingScope?
      else if owner.kind.isFunctionDeclaration && decide (owner.child? .name = some binding) then
        owner.enclosingScope?
      else if owner.kind.isScope then some owner
      else
        -- the owner is a list of parameters or a part of an import
        match owner.parent? with
        | some function => if function.kind.isFunction then some function else some binding.unit.top
        | none => none

theorem isScope_of_isFunction {kind : Kind} (h : kind.isFunction = true) : kind.isScope = true := by
  cases kind <;> simp_all [Kind.isFunction, Kind.isScope]

theorem isPattern_of_isScope {kind : Kind} (h : kind.isScope = true) : kind.isPattern = false := by
  cases kind <;> simp_all [Kind.isFunction, Kind.isScope, Kind.isPattern]

/-- A node that is a scope of its own owns what is declared directly in it. -/
theorem declaringScope?_of_owner {binding owner : Cursor}
    (howner : binding.patternOwner? = some owner) (hscope : owner.kind.isScope = true)
    (hname : owner.kind.isFunctionDeclaration = true → owner.child? .name ≠ some binding) :
    binding.declaringScope? = some owner := by
  have hvariable : owner.kind ≠ .variableDeclarator := by
    intro hkind
    rw [hkind] at hscope
    simp [Kind.isScope, Kind.isFunction] at hscope
  have hclass : owner.kind ≠ .classDeclaration := by
    intro hkind
    rw [hkind] at hscope
    simp [Kind.isScope, Kind.isFunction] at hscope
  have hnotName :
      (owner.kind.isFunctionDeclaration && decide (owner.child? .name = some binding)) = false := by
    cases hdeclaration : owner.kind.isFunctionDeclaration with
    | false => rfl
    | true => simp [hname hdeclaration]
  simp [declaringScope?, howner, hvariable, hclass, hnotName, hscope]

theorem enclosingScope?_of_parent? {c parent : Cursor} (hparent : c.parent? = some parent)
    (hscope : parent.kind.isScope = true) : c.enclosingScope? = some parent := by
  obtain ⟨unit, node, above⟩ := c
  cases above with
  | nil => simp [parent?] at hparent
  | cons first rest =>
      have heq : (⟨unit, first, rest⟩ : Cursor) = parent := by simpa [parent?] using hparent
      subst heq
      have hkind : first.label.kind.isScope = true := hscope
      simp [enclosingScope?, ancestor?, nearest?, hkind]

/-- A parameter belongs to its function, provided that the parameter list is no scope. -/
theorem declaringScope?_of_mem_parameterBindings {function binding : Cursor}
    (hkind : function.kind.isFunction = true) (h : binding ∈ function.parameterBindings)
    (hlist : ∀ list, function.child? .parameters = some list → list.kind.isScope = false) :
    binding.declaringScope? = some function := by
  have hscope := isScope_of_isFunction hkind
  have hname : function.kind.isFunctionDeclaration = true → function.child? .name ≠ some binding :=
    fun _ hname => name_not_mem_parameterBindings hname h
  obtain ⟨parameter, hparameter, _, howner⟩ := of_mem_parameterBindings h
  rcases of_mem_functionParameters hparameter with hsingle | ⟨list, hfound, hinList⟩
  · have hparent := patternOwner?_of_mem_children (mem_children_of_child? hsingle)
      (isPattern_of_isScope hscope)
    exact declaringScope?_of_owner (howner.trans hparent) hscope hname
  · have hlistParent := parent?_of_child? hfound
    have hlistOwner := patternOwner?_of_mem_children (mem_children_of_child? hfound)
      (isPattern_of_isScope hscope)
    rw [patternOwner?_of_parent?
      (parent?_of_mem_children (mem_namedChildren.mp hinList).1)] at howner
    split at howner
    · exact declaringScope?_of_owner (howner.trans hlistOwner) hscope hname
    · -- the list itself may be mistaken for a declaration; its scope is the function still
      have hnotScope := hlist list hfound
      have henclosing := enclosingScope?_of_parent? hlistParent hscope
      have hnotFunction : list.kind.isFunctionDeclaration = false := by
        cases hdeclaration : list.kind.isFunctionDeclaration with
        | false => rfl
        | true =>
            have hfunction : list.kind.isFunction = true := by
              revert hdeclaration
              cases list.kind <;> simp [Kind.isFunctionDeclaration, Kind.isFunction]
            rw [isScope_of_isFunction hfunction] at hnotScope
            exact absurd hnotScope (by simp)
      have hhoisted : function.kind ≠ .variableDeclaration := by
        intro hkind'
        rw [hkind'] at hkind
        simp [Kind.isFunction] at hkind
      simp [declaringScope?, howner, declaratorScope?, hlistParent, henclosing, hnotFunction,
        hnotScope, hhoisted, hkind]

/-- The scope in which a node declares a name is the one told from the name's surroundings. -/
theorem declaringScope?_of_declares {c scope binding : Cursor} (h : Declares c scope binding)
    (hlist : ∀ list, c.child? .parameters = some list → list.kind.isScope = false) :
    binding.declaringScope? = some scope := by
  have hpattern : ∀ {field : Field}, c.kind.isPattern = false → binding ∈ c.bindingsOf field →
      binding.patternOwner? = some c := by
    intro field hkind hbinding
    obtain ⟨pattern, hfound, hmem⟩ := mem_bindingsOf.mp hbinding
    exact (of_mem_patternBindings hmem).2.trans
      (patternOwner?_of_mem_children (mem_children_of_child? hfound) hkind)
  cases h with
  | declarator hkind hscope hbinding =>
      have howner := hpattern (by rw [hkind]; rfl) hbinding
      simp [declaringScope?, howner, hkind, hscope]
  | name hkind hscope hname =>
      have hnotPattern : c.kind.isPattern = false := by
        revert hkind
        cases c.kind <;> simp [Kind.isPattern, Kind.isFunctionDeclaration]
      have hnotVariable : c.kind ≠ .variableDeclarator := by
        rintro heq
        simp [heq, Kind.isFunctionDeclaration] at hkind
      have howner := patternOwner?_of_mem_children (mem_children_of_child? hname) hnotPattern
      rcases hkind with hkind | hkind <;>
        simp [declaringScope?, howner, hnotVariable, hkind, hname, hscope]
  | innerName hkind hname =>
      have hscope : c.kind.isScope = true := by
        revert hkind
        cases c.kind <;> simp [Kind.isNamedFunctionExpression, Kind.isScope, Kind.isFunction]
      have howner := patternOwner?_of_mem_children (mem_children_of_child? hname)
        (isPattern_of_isScope hscope)
      refine declaringScope?_of_owner howner hscope fun hdeclaration => ?_
      revert hkind hdeclaration
      cases c.kind <;> simp [Kind.isNamedFunctionExpression, Kind.isFunctionDeclaration]
  | parameter hkind hbinding => exact declaringScope?_of_mem_parameterBindings hkind hbinding hlist
  | caught hkind hbinding =>
      have howner := hpattern (by rw [hkind]; rfl) hbinding
      exact declaringScope?_of_owner howner (by rw [hkind]; rfl) fun hdeclaration => by
        simp [hkind, Kind.isFunctionDeclaration] at hdeclaration
  | loop hkind _ hbinding =>
      have howner := hpattern (by rw [hkind]; rfl) hbinding
      exact declaringScope?_of_owner howner (by rw [hkind]; rfl) fun hdeclaration => by
        simp [hkind, Kind.isFunctionDeclaration] at hdeclaration
  | imported hkind hfound =>
      obtain ⟨hbelow, part, above, hmem, hparent, hnotFunction, hpart⟩ :=
        of_mem_statementBindings hkind hfound
      have hunit := hbelow.unit_eq
      have hplain : part.kind.isPattern = false ∧ part.kind.isScope = false ∧
          part.kind.isFunctionDeclaration = false ∧ part.kind ≠ .variableDeclarator ∧
          part.kind ≠ .classDeclaration := by
        rcases hpart with hpart | hpart | hpart <;> rw [hpart] <;> decide
      obtain ⟨hnotPattern, hnotScope, hnotDeclaration, hnotVariable, hnotClass⟩ := hplain
      have howner := patternOwner?_of_mem_children hmem hnotPattern
      simp [declaringScope?, howner, hnotScope, hnotDeclaration, hnotVariable, hnotClass, hparent,
        hnotFunction, hunit]

end Cursor

end MessageKeys.Syntax
