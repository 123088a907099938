import MessageKeys.Proofs.Syntax.Checks
import MessageKeys.Proofs.Usage.Reachability

/-!
# Resolving with checks

The functions of the resolver, each with a check where it relies on what another function has
established:

* A use carries a call, an index and a name, all of which may be missing (`Checked.Use`).  What
  follows a use asks for the ones that its kind promises (`Checked.follow`).
* A parameter is looked up by the index of a use, which is `-1` unless the use has one
  (`Checked.forward`).
* A test of a node that may be absent is followed by asking for the node.
* A place is put together from four numbers, which have to make a span (`Checked.span`).

On a project of sound files no check fails: the functions with checks give what those without give,
up to the whole resolution (`Checked.resolve_eq`).
-/

namespace MessageKeys

open Syntax Cursor

/-- A project of sound files, each with its own index. -/
structure Project.Sound (project : Project) : Prop where
  coherent : project.Coherent
  units : ∀ unit ∈ project.units, unit.Sound

theorem Project.Sound.of_holds {project : Project} {c : Cursor} (h : project.Sound)
    (hc : project.Holds c) : c.Sound :=
  ⟨hc.2, h.units c.unit hc.1⟩

/-! ## Arguments -/

theorem Syntax.Cursor.beneath_of_mem_argumentNodes {call argument : Cursor}
    (h : argument ∈ call.argumentNodes) : Beneath call argument := by
  unfold argumentNodes at h
  split at h
  · rename_i list hlist
    split at h
    · exact (Beneath.here.child? hlist).of_mem_namedChildren (List.mem_filter.mp h).1
    · exact absurd h List.not_mem_nil
  · exact absurd h List.not_mem_nil

theorem Syntax.Cursor.Sound.of_mem_argumentNodes {call argument : Cursor} (h : call.Sound)
    (hargument : argument ∈ call.argumentNodes) : argument.Sound :=
  h.beneath (beneath_of_mem_argumentNodes hargument)

theorem Resolver.mem_argumentNodes_of_hookSpace {call argument : Cursor}
    (h : hookSpace call = .error argument) : argument ∈ call.argumentNodes := by
  unfold hookSpace at h
  split at h
  · contradiction
  · rename_i first rest harguments
    split at h
    · split at h <;> contradiction
    · rw [harguments, ← Except.error.inj h]
      exact List.mem_cons_self

namespace Checked

/-! ## The use of a reference -/

/-- The kinds of use. -/
inductive UseKind where
  | direct
  | positional
  | property
  | ignored
  deriving DecidableEq, Repr

/-- A use with what is known about it. -/
structure Use where
  kind : UseKind := .ignored
  call : Option Cursor := none
  index : Int := -1
  name : Option Text := none

/-- What is known about a use. -/
def Use.of : ReferenceUse → Use
  | .direct call => { kind := .direct, call := some call }
  | .positional call index => { kind := .positional, call := some call, index }
  | .property call index name =>
      { kind := .property, call := some call, index, name := some name }
  | .ignored => {}

/-- The use of an argument by the call around it. -/
def argumentUse (argument : Cursor) (kind : UseKind) (name : Option Text) : Except Fault Use := do
  if isA argument.parent? (· == .arguments) then
    let list ← node argument.parent?
    if isA list.parent? (· == .callExpression) then
      let call ← node list.parent?
      match call.argumentNodes.findIdx? fun candidate => candidate.sameNode argument with
      | some index => return { kind, call := some call, index, name }
      | none => return {}
    else return {}
  else return {}

/-- The use of a reference. -/
def classify (reference : Cursor) : Except Fault Use :=
  match reference.parent? with
  | none => .ok {}
  | some parent =>
      match parent.kind with
      | .callExpression =>
          if parent.hasChild .function reference then
            .ok { kind := .direct, call := some parent }
          else .ok {}
      | .memberExpression =>
          if parent.hasChild .object reference then
            let call := parent.parent?
            if isA call (· == .callExpression) && call.any (·.hasChild .function parent) then
              .ok { kind := .direct, call }
            else .ok {}
          else .ok {}
      | .arguments => argumentUse reference .positional none
      | .object =>
          if reference.kind = .shorthandPropertyIdentifier then
            argumentUse parent .property (some reference.text)
          else .ok {}
      | .pair =>
          if parent.hasChild .value reference then do
            let name ← propertyName? (parent.child? .key)
            if name.isSome && isA parent.parent? (· == .object) then
              let literal ← node parent.parent?
              argumentUse literal .property name
            else return {}
          else .ok {}
      | _ => .ok {}

theorem argumentUse_eq (argument : Cursor) (kind : UseKind) (name : Option Text) :
    argumentUse argument kind name = .ok (match ReferenceUse.argumentOf? argument with
      | some (call, index) => { kind, call := some call, index, name }
      | none => {}) := by
  unfold argumentUse ReferenceUse.argumentOf?
  cases argument.parent? with
  | none => rfl
  | some list =>
      by_cases hlist : list.kind = .arguments
      · cases hcall : list.parent? with
        | none => simp [hlist, hcall]
        | some call =>
            by_cases hkind : call.kind = .callExpression
            · cases hindex : call.argumentNodes.findIdx? fun candidate =>
                candidate.sameNode argument with
              | none => simp [hlist, hcall, hkind, hindex]
              | some index => simp [hlist, hcall, hkind, hindex]
            · simp [hlist, hcall, hkind]
      · simp [hlist]

theorem argumentUse_property (literal : Cursor) (name : Text) :
    argumentUse literal .property (some name) =
      .ok (Use.of (ReferenceUse.carriedBy literal name)) := by
  rw [argumentUse_eq, ReferenceUse.carriedBy]
  cases ReferenceUse.argumentOf? literal <;> rfl

theorem classify_eq {c : Cursor} (h : c.Sound) :
    classify c = .ok (Use.of (ReferenceUse.classify c)) := by
  unfold classify ReferenceUse.classify
  cases hparent : c.parent? with
  | none => rfl
  | some parent =>
      have hsound := h.of_mem_lineage (mem_lineage_of_parent? hparent)
      dsimp only
      cases parent.kind
      case callExpression =>
        dsimp only
        split <;> rfl
      case memberExpression =>
        -- a method of the reference: the node above is tested before it is used as the call
        dsimp only
        split
        · cases parent.parent? with
          | none => rfl
          | some call =>
              by_cases hcall : call.kind = .callExpression
              · by_cases hfunction : call.hasChild .function parent <;>
                  simp [hcall, hfunction, Use.of]
              · simp [hcall, Use.of]
        · rfl
      case arguments =>
        dsimp only
        rw [argumentUse_eq]
        cases ReferenceUse.argumentOf? c <;> rfl
      case object =>
        dsimp only
        split
        · exact argumentUse_property parent c.text
        · rfl
      case pair =>
        dsimp only
        split
        · rw [propertyName?_eq (hsound.child? _)]
          cases (parent.child? .key).bind Cursor.propertyName? with
          | none => rfl
          | some name =>
              cases parent.parent? with
              | none => rfl
              | some literal =>
                  by_cases hliteral : literal.kind = .object
                  · simp [hliteral, argumentUse_property]
                  · simp [hliteral, Use.of]
        · rfl
      all_goals rfl

/-! ## The function that a call invokes -/

/-- The function that a binding names in its own file. -/
def bound (binding : Cursor) : Except Fault Callee.Bound :=
  match binding.parent? with
  | none => .ok .nothing
  | some parent =>
      if (parent.kind.isFunctionDeclaration || parent.kind.isNamedFunctionExpression)
          && parent.hasChild .name binding then .ok (.function parent)
      else if parent.kind = .variableDeclarator && parent.hasChild .name binding then do
        if isA (parent.child? .value) Kind.isFunction then
          let value ← node (parent.child? .value)
          return .function value
        else return .nothing
      else .ok .elsewhere

/-- A member of an object literal or class body that is a function called `name`. -/
def namedMember? (name : Text) (member : Cursor) : Except Fault (Option Cursor) :=
  match member.kind with
  | .methodDefinition => do
      let own ← propertyName? (member.child? .name)
      return if own = some name then some member else none
  | .pair | .publicFieldDefinition | .fieldDefinition => do
      let own ← propertyName? ((member.child? .key).or (member.child? .name))
      return if own = some name && isA (member.child? .value) Kind.isFunction then
        member.child? .value else none
  | _ => .ok none

/-- The first function called `name` among the members of an object literal or class body. -/
def memberFunction? (container : Cursor) (name : Text) : Except Fault (Option Cursor) :=
  findSome? (namedMember? name) container.namedChildren

/-- The file and the exported name that an import binding stands for. -/
def imported? (project : Project) (binding : Cursor) :
    Except Fault (Option (SourceUnit × Text)) := do
  let bindings ← imports binding.unit
  match bindings.find? fun found => decide (found.node.key = binding.key) with
  | some found =>
      return (project.resolveModule? binding.unit found.module).map fun target =>
        (target, found.importedName)
  | none => return none

/-- The function that a file exports under a name. -/
def exported? (target : SourceUnit) (name : Text) : Except Fault (Option Cursor) := do
  let table ← exports target
  match Assoc.get? name table with
  | none => return none
  | some provider =>
      if provider.kind.isFunction then return some provider
      else if provider.kind.isReference then
        let index ← scopeIndex target
        match index.declarationOf? provider with
        | some declaration =>
            match ← bound declaration with
            | .function f => return some f
            | _ => return none
        | none => return none
      else return none

/-- The function that a name stands for where it is called. -/
def named? (project : Project) (name : Cursor) : Except Fault (Option Cursor) := do
  let index ← scopeIndex name.unit
  match index.declarationOf? name with
  | none => return none
  | some binding =>
      match ← bound binding with
      | .function f => return some f
      | .nothing => return none
      | .elsewhere =>
          match ← imported? project binding with
          | some (target, exportedName) => exported? target exportedName
          | none => return none

/-- The function that a member access stands for. -/
def member? (project : Project) (access : Cursor) : Except Fault (Option Cursor) := do
  let name ← propertyName? (access.child? .property)
  match access.child? .object, name with
  | some receiver, some name =>
      if receiver.kind = .thisExpression then
        match access.ancestor? fun kind => kind == .classBody with
        | some body => memberFunction? body name
        | none => return none
      else if receiver.kind.isReference then
        let index ← scopeIndex receiver.unit
        match index.declarationOf? receiver with
        | none => return none
        | some declaration =>
            match Callee.container? declaration with
            | some container => memberFunction? container name
            | none =>
                match ← imported? project declaration with
                | some (target, importedName) =>
                    if importedName = wholeModule then exported? target name else return none
                | none => return none
      else return none
  | _, _ => return none

/-- The function that a call invokes. -/
def callee? (project : Project) (call : Cursor) : Except Fault (Option Cursor) := do
  if isA (call.child? .function) Kind.isReference then
    let callee ← node (call.child? .function)
    named? project callee
  else if isA (call.child? .function) (· == .memberExpression) then
    let callee ← node (call.child? .function)
    member? project callee
  else return none

section

variable {project : Project} {c : Cursor}

theorem bound_eq (c : Cursor) : bound c = .ok (Callee.bound c) := by
  unfold bound Callee.bound
  cases c.parent? with
  | none => rfl
  | some parent =>
      dsimp only
      split
      · rfl
      · split
        · cases hvalue : parent.child? .value with
          | none => rfl
          | some value => cases hfunction : value.kind.isFunction <;> simp [hfunction]
        · rfl

theorem memberFunction?_eq (h : c.Sound) (name : Text) :
    memberFunction? c name = .ok (Callee.memberFunction? c name) := by
  apply findSome?_eq
  intro member hmember
  have hsound := h.of_mem_namedChildren hmember
  unfold namedMember?
  cases member.kind
  case methodDefinition =>
    dsimp only
    rw [propertyName?_eq (hsound.child? _)]
    rfl
  case pair | publicFieldDefinition | fieldDefinition =>
    dsimp only
    rw [propertyName?_eq (sound_or (hsound.child? _) (hsound.child? _))]
    cases hvalue : member.child? .value <;> simp
  all_goals rfl

theorem imported?_eq (h : c.unit.Sound) :
    imported? project c = .ok (Callee.imported? project c) := by
  unfold imported? Callee.imported?
  rw [imports_eq h, ok_bind]
  cases c.unit.imports.find? fun found => decide (found.node.key = c.key) <;> rfl

theorem exported?_eq (hproject : project.Sound) {target : SourceUnit}
    (htarget : target ∈ project.units) (name : Text) :
    exported? target name = .ok (Callee.exported? project target name) := by
  have hsound := hproject.units target htarget
  unfold exported? Callee.exported?
  rw [exports_eq hsound, scopeIndex_eq hsound, hproject.coherent.index_eq]
  simp only [ok_bind, bound_eq]
  cases Assoc.get? name target.exports with
  | none => rfl
  | some provider =>
      dsimp only
      split
      · rfl
      · split
        · cases (ScopeIndex.ofUnit target).declarationOf? provider with
          | none => rfl
          | some declaration =>
              dsimp only
              cases Callee.bound declaration <;> rfl
        · rfl

theorem scopeIndex_eq_index (hproject : project.Sound) (hc : project.Holds c) :
    scopeIndex c.unit = .ok (project.index c.unit) := by
  rw [scopeIndex_eq (hproject.units c.unit hc.1), hproject.coherent.index_eq]

theorem named?_eq (hproject : project.Sound) (hc : project.Holds c) :
    named? project c = .ok (Callee.named? project c) := by
  unfold named? Callee.named?
  rw [scopeIndex_eq_index hproject hc]
  simp only [ok_bind, bound_eq]
  cases hbinding : (project.index c.unit).declarationOf? c with
  | none => rfl
  | some binding =>
      have hsound := hproject.of_holds (hc.declarationOf? hproject.coherent hbinding)
      dsimp only
      cases Callee.bound binding with
      | function f => rfl
      | nothing => rfl
      | elsewhere =>
          dsimp only
          rw [imported?_eq hsound.unit, ok_bind]
          cases himported : Callee.imported? project binding with
          | none => rfl
          | some found => exact exported?_eq hproject (Callee.mem_units_of_imported? himported) _

theorem member?_eq (hproject : project.Sound) (hc : project.Holds c) :
    member? project c = .ok (Callee.member? project c) := by
  have hsound := hproject.of_holds hc
  unfold member? Callee.member?
  rw [propertyName?_eq (hsound.child? _), ok_bind]
  cases hreceiver : c.child? .object with
  | none => rfl
  | some receiver =>
      have hholds := hc.child? hreceiver
      cases (c.child? .property).bind Cursor.propertyName? with
      | none => rfl
      | some name =>
          dsimp only
          split
          · -- a member of the class around `this`
            cases hbody : c.ancestor? fun kind => kind == .classBody with
            | none => rfl
            | some body =>
                have hlineage := mem_lineage_of_ancestor? hbody
                exact memberFunction?_eq (hsound.of_mem_lineage hlineage) name
          · split
            · rw [scopeIndex_eq_index hproject hholds, ok_bind]
              cases hdeclaration : (project.index receiver.unit).declarationOf? receiver with
              | none => rfl
              | some declaration =>
                  have hdeclared := hholds.declarationOf? hproject.coherent hdeclaration
                  dsimp only
                  cases hcontainer : Callee.container? declaration with
                  | some container =>
                      have hamong := Callee.among_of_container? hdeclared hcontainer
                      exact memberFunction?_eq (hproject.of_holds hamong) name
                  | none =>
                      -- a name of a whole imported file
                      dsimp only
                      rw [imported?_eq (hproject.of_holds hdeclared).unit, ok_bind]
                      cases himported : Callee.imported? project declaration with
                      | none => rfl
                      | some found =>
                          have htarget := Callee.mem_units_of_imported? himported
                          dsimp only
                          split
                          · exact exported?_eq hproject htarget name
                          · rfl
            · rfl

theorem callee?_eq (hproject : project.Sound) (hc : project.Holds c) :
    callee? project c = .ok (project.callee? c) := by
  unfold callee? Project.callee?
  cases hcallee : c.child? .function with
  | none => rfl
  | some callee =>
      have hholds := hc.child? hcallee
      simp only [isA_some, node_some, ok_bind, named?_eq hproject hholds,
        member?_eq hproject hholds, beq_iff_eq]
      split
      · rfl
      · split <;> rfl

end

/-! ## Recording a call -/

/-- The place of a node for reports. -/
def span (c : Cursor) : Except Fault SourceSpan :=
  (SourceSpan.ofInts c.label.start c.label.stop c.span.line c.span.column c.unit.path).mapError
    Fault.noSpan

/-- The key that a call asks for, if its first argument is a literal. -/
def literalKey? (call : Cursor) : Except Fault (Option Text) :=
  if call.argumentNodes.isEmpty then .ok none
  else do
    let argument ← entry call.argumentNodes 0
    stringValue? (some argument)

/-- The node at which a call without a literal key is recorded. -/
def dynamicNode (call : Cursor) : Except Fault Cursor :=
  if call.argumentNodes.isEmpty then .ok call else entry call.argumentNodes 0

/-- Record a call through a translator of a namespace. -/
def recordCall (config : HookConfig) (space : Option Text) (call : Cursor) (trace : Trace) :
    Except Fault Trace := do
  match ← literalKey? call with
  | some literal =>
      let argument ← entry call.argumentNodes 0
      let place ← span argument
      return trace.recordKey (Key.qualify space literal) space place
  | none =>
      let target ← dynamicNode call
      let place ← span target
      return trace.recordDynamic
        ⟨place, space, if call.argumentNodes.isEmpty then .missingKey else .nonLiteralKey,
          config.name⟩

theorem span_eq {c : Cursor} (h : c.Sound) : span c = .ok c.span := by
  obtain ⟨hordered, -⟩ := h.unit.ordered c.label h.label_mem
  have hline : ¬ (c.span.line : ℤ) < 1 := by
    simp only [Cursor.span]
    omega
  have hcolumn : ¬ (c.span.column : ℤ) < 1 := by
    simp only [Cursor.span]
    omega
  unfold span SourceSpan.ofInts
  rw [if_neg (by omega), if_neg (by omega), if_neg hline, if_neg hcolumn]
  rfl

theorem recordCall_eq {call : Cursor} (h : call.Sound) (config : HookConfig) (space : Option Text)
    (trace : Trace) :
    recordCall config space call trace = .ok (trace.recordCall config space call) := by
  unfold recordCall Trace.recordCall literalKey? dynamicNode
  cases harguments : call.argumentNodes with
  | nil => simp [span_eq h]
  | cons argument rest =>
      have hargument : argument.Sound :=
        h.of_mem_argumentNodes (harguments ▸ List.mem_cons_self)
      cases hliteral : argument.stringValue? with
      | none => simp [stringValue?_some hargument, hliteral, span_eq hargument]
      | some literal => simp [stringValue?_some hargument, hliteral, span_eq hargument]

/-! ## Following a use -/

/-- The elements of an object pattern that read a property. -/
def destructured (pattern : Cursor) (property : Text) : Except Fault (List Cursor) :=
  filterMap
    (fun element =>
      match element.kind with
      | .shorthandPropertyIdentifierPattern =>
          .ok (if element.text = property then some element else none)
      | .objectAssignmentPattern =>
          .ok (match element.child? .left with
            | some left => if left.text = property then some left else none
            | none => none)
      | .pairPattern => do
          let name ← propertyName? (element.child? .key)
          if name = some property then
            return match element.child? .value with
              | some value =>
                  (if value.kind = .assignmentPattern then value.child? .left
                    else some value).filter
                    fun found => decide (found.kind = .identifier)
              | none => none
          else return none
      | _ => .ok none)
    pattern.namedChildren

/-- The translators that handing one on makes in the called function. -/
def forward (r : Resolver) (space : Option Text) (use : Use) : Except Fault (List Translator) := do
  match use.call with
  | none => return []
  | some call =>
      match ← callee? r.project call with
      | none => return []
      | some function =>
          if (function.functionParameters.length : ℤ) ≤ use.index then return []
          else
            let parameter ← entry function.functionParameters use.index
            match parameter.parameterPattern?, use.name with
            | none, _ => return []
            | some pattern, none =>
                return if pattern.kind = .identifier then [⟨pattern, space⟩] else []
            | some pattern, some name =>
                if pattern.kind = .objectPattern then
                  let elements ← destructured pattern name
                  return elements.map fun element => ⟨element, space⟩
                else return []

/-- Record the call that a node makes through a translator, or find the translators that the node is
handed on to. -/
def follow (r : Resolver) (space : Option Text) (c : Cursor) (trace : Trace) :
    Except Fault (Trace × List Translator) := do
  let use ← classify c
  match use.kind with
  | .direct =>
      let call ← node use.call
      let next ← recordCall r.config space call trace
      return (next, [])
  | .positional | .property =>
      let found ← forward r space use
      return (trace, found)
  | .ignored => return (trace, [])

section

variable {r : Resolver} {space : Option Text}

theorem destructured_eq {pattern : Cursor} (h : pattern.Sound) (property : Text) :
    destructured pattern property = .ok (pattern.destructured property) := by
  apply filterMap_eq
  intro element helement
  have hsound := h.of_mem_namedChildren helement
  cases element.kind
  case objectAssignmentPattern => cases element.child? .left <;> rfl
  case pairPattern =>
    dsimp only
    rw [propertyName?_eq (hsound.child? _), ok_bind]
    split
    · cases element.child? .value <;> rfl
    · rfl
  all_goals rfl

/-- An index that is one of a parameter or too large passes the checks. -/
theorem forward_natCast (hproject : r.project.Sound) {call : Cursor} (hcall : r.project.Holds call)
    (kind : UseKind) (index : ℕ) (name : Option Text) :
    forward r space { kind, call := some call, index, name } =
      match (r.project.callee? call).bind fun function =>
          function.functionParameters[index]?.bind parameterPattern?, name with
      | none, _ => .ok []
      | some pattern, none => .ok (if pattern.kind = .identifier then [⟨pattern, space⟩] else [])
      | some pattern, some name =>
          .ok (if pattern.kind = .objectPattern then
            (pattern.destructured name).map fun element => ⟨element, space⟩ else []) := by
  unfold forward
  dsimp only
  rw [callee?_eq hproject hcall, ok_bind]
  cases hfunction : r.project.callee? call with
  | none => rfl
  | some function =>
      have hholds :=
        r.project.among_of_callee? hproject.coherent (List.Subset.refl _) hcall hfunction
      dsimp only
      rw [Option.bind_some]
      split
      · rename_i hlong
        rw [List.getElem?_eq_none (by omega)]
        rfl
      · rename_i hshort
        have hlt : index < function.functionParameters.length := by omega
        have hparameter := List.getElem?_eq_getElem hlt
        rw [entry_natCast hparameter, ok_bind, hparameter, Option.bind_some]
        cases hpattern : (function.functionParameters[index]).parameterPattern? with
        | none => rfl
        | some pattern =>
            cases name with
            | none => rfl
            | some name =>
                have hbeneath := beneath_of_mem_functionParameters (List.getElem_mem hlt)
                have hamong := (hholds.beneath hbeneath).beneath (of_parameterPattern? hpattern).1
                dsimp only
                rw [destructured_eq (hproject.of_holds hamong)]
                split <;> rfl

theorem forward_eq (hproject : r.project.Sound) (space : Option Text) {use : ReferenceUse}
    (hcall : ∀ call, use.call? = some call → r.project.Holds call)
    (hdirect : ∀ call, use ≠ .direct call) :
    forward r space (Use.of use) = .ok (r.forward space use) := by
  cases use with
  | ignored => rfl
  | direct call => exact absurd rfl (hdirect call)
  | positional call index =>
      rw [Use.of, forward_natCast hproject (hcall call rfl), Resolver.forward]
      dsimp only
      cases (r.project.callee? call).bind fun function =>
        function.functionParameters[index]?.bind parameterPattern? <;> rfl
  | property call index name =>
      rw [Use.of, forward_natCast hproject (hcall call rfl), Resolver.forward]
      dsimp only
      cases (r.project.callee? call).bind fun function =>
        function.functionParameters[index]?.bind parameterPattern? <;> rfl

/-- What a use adds to a trace, and the translators that it makes. -/
def followed (r : Resolver) (space : Option Text) (use : ReferenceUse) (trace : Trace) :
    Trace × List Translator :=
  match use with
  | .direct call => (trace.recordCall r.config space call, [])
  | use => (trace, r.forward space use)

/-- The use of a node has what its kind promises. -/
theorem follow_eq (hproject : r.project.Sound) {c : Cursor} (hc : r.project.Holds c)
    (space : Option Text) (trace : Trace) :
    follow r space c trace = .ok (followed r space (ReferenceUse.classify c) trace) := by
  have hcall : ∀ call, (ReferenceUse.classify c).call? = some call → r.project.Holds call :=
    fun call huse => hc.of_mem_lineage (ReferenceUse.of_classify huse).1
  unfold follow
  rw [classify_eq (hproject.of_holds hc), ok_bind]
  cases huse : ReferenceUse.classify c with
  | direct call =>
      have hsound := hproject.of_holds (hcall call (by rw [huse]; rfl))
      simp [followed, Use.of, recordCall_eq hsound]
  | positional call index =>
      rw [huse] at hcall
      have hforward := forward_eq hproject space hcall (by simp)
      rw [Use.of] at hforward
      simp [followed, Use.of, hforward]
  | property call index name =>
      rw [huse] at hcall
      have hforward := forward_eq hproject space hcall (by simp)
      rw [Use.of] at hforward
      simp [followed, Use.of, hforward]
  | ignored => rfl

end

/-! ## Expanding a translator -/

/-- Deal with a translator: mark it, record the calls through it and find the translators that it is
handed on to. -/
def expandOne (r : Resolver) (t : Translator) (trace : Trace) :
    Except Fault (Trace × List Translator) := do
  let index ← scopeIndex t.site.unit
  (index.references t.site).foldlM
    (fun (before, found) reference => do
      let (after, more) ← follow r t.space reference before
      return (after, found ++ more))
    (trace.visit t, [])

theorem visited_of_recordCall {config : HookConfig} {space : Option Text} {call : Cursor}
    {before after : Trace} (h : recordCall config space call before = .ok after) :
    after.visited = before.visited := by
  unfold recordCall at h
  obtain ⟨literal, -, h⟩ := bind_eq_ok.mp h
  cases literal with
  | some literal =>
      obtain ⟨argument, -, h⟩ := bind_eq_ok.mp h
      obtain ⟨place, -, h⟩ := bind_eq_ok.mp h
      rw [← Except.ok.inj h]
      rfl
  | none =>
      obtain ⟨target, -, h⟩ := bind_eq_ok.mp h
      obtain ⟨place, -, h⟩ := bind_eq_ok.mp h
      rw [← Except.ok.inj h]
      rfl

theorem visited_of_follow {r : Resolver} {space : Option Text} {c : Cursor} {before : Trace}
    {after : Trace × List Translator} (h : follow r space c before = .ok after) :
    after.1.visited = before.visited := by
  unfold follow at h
  obtain ⟨use, -, h⟩ := bind_eq_ok.mp h
  cases hkind : use.kind <;> simp only [hkind] at h
  case direct =>
    obtain ⟨call, -, h⟩ := bind_eq_ok.mp h
    obtain ⟨next, hnext, h⟩ := bind_eq_ok.mp h
    rw [← Except.ok.inj h]
    exact visited_of_recordCall hnext
  case ignored => rw [← Except.ok.inj h]
  all_goals
    obtain ⟨found, -, h⟩ := bind_eq_ok.mp h
    rw [← Except.ok.inj h]

/-- Whatever else happens, the translator is marked. -/
theorem visited_of_expandOne {r : Resolver} {t : Translator} {before : Trace}
    {after : Trace × List Translator} (h : expandOne r t before = .ok after) :
    after.1.visited = t.key :: before.visited := by
  unfold expandOne at h
  obtain ⟨index, -, h⟩ := bind_eq_ok.mp h
  refine foldlM_invariant (P := fun state => state.1.visited = t.key :: before.visited) ?_ h rfl
  rintro state reference next hnext hstate
  obtain ⟨followed, hfollowed, hnext⟩ := bind_eq_ok.mp hnext
  rw [← Except.ok.inj hnext]
  exact (visited_of_follow hfollowed).trans hstate

/-- Expand translators from a stack.  Only `possible` ones are expanded, each of them once. -/
def expandAll (r : Resolver) (possible : List TranslatorKey) (stack : List Translator)
    (trace : Trace) : Except Fault Trace :=
  match stack with
  | [] => .ok trace
  | t :: rest =>
      if t.key ∈ trace.visited then expandAll r possible rest trace
      else if t.key ∈ possible then
        match _hexpanded : expandOne r t trace with
        | .error fault => .error fault
        | .ok (next, found) => expandAll r possible (found ++ rest) next
      else expandAll r possible rest trace
termination_by (Resolver.pending possible trace, stack.length)
decreasing_by
  · exact Prod.Lex.right _ (Nat.lt_succ_self _)
  · exact Prod.Lex.left _ _ (Resolver.pending_lt ‹_› ‹_› (visited_of_expandOne _hexpanded))
  · exact Prod.Lex.right _ (Nat.lt_succ_self _)

section

variable {r : Resolver} {t : Translator}

theorem foldl_followed (space : Option Text) (references : List Cursor) (trace : Trace)
    (found : List Translator) :
    references.foldl
        (fun state reference =>
          let out := followed r space (ReferenceUse.classify reference) state.1
          (out.1, state.2 ++ out.2))
        (trace, found) =
      ((references.map ReferenceUse.classify).foldl
          (fun trace use =>
            match use with
            | .direct call => trace.recordCall r.config space call
            | _ => trace)
          trace,
        found ++ (references.map ReferenceUse.classify).flatMap (r.forward space)) := by
  induction references generalizing trace found with
  | nil => simp
  | cons reference rest ih =>
      rw [List.foldl_cons, ih, List.map_cons, List.foldl_cons, List.flatMap_cons]
      cases ReferenceUse.classify reference <;> simp [followed, Resolver.forward]

theorem expandOne_eq (hproject : r.project.Sound) (ht : r.project.Holds t.site) (trace : Trace) :
    expandOne r t trace = .ok (r.expandOne t trace, r.forwarded t) := by
  unfold expandOne
  rw [scopeIndex_eq_index hproject ht, ok_bind, foldlM_eq (trace.visit t, [])
    (g := fun state reference =>
      let out := followed r t.space (ReferenceUse.classify reference) state.1
      (out.1, state.2 ++ out.2))]
  · rw [foldl_followed]
    rfl
  · rintro reference hreference ⟨before, found⟩
    have hholds := Resolver.among_of_mem_references hproject.coherent ht.1 hreference
    simp [follow_eq hproject hholds]

theorem expandAll_eq (hproject : r.project.Sound) {possible : List TranslatorKey}
    {stack : List Translator} {trace : Trace} (hstack : ∀ t ∈ stack, r.project.Holds t.site) :
    expandAll r possible stack trace = .ok (r.expandAll possible stack trace) := by
  fun_induction Resolver.expandAll r possible stack trace with
  | case1 trace =>
      rw [expandAll]
  | case2 trace t rest hmarked ih =>
      rw [expandAll, if_pos hmarked]
      exact ih fun s hs => hstack s (List.mem_cons_of_mem t hs)
  | case3 trace t rest hfresh hpossible ih =>
      have ht := hstack t List.mem_cons_self
      have hexpanded := expandOne_eq hproject ht trace
      rw [expandAll, if_neg hfresh, if_pos hpossible]
      split
      · rename_i fault hfault
        rw [hexpanded] at hfault
        contradiction
      · rename_i next found hnext
        obtain ⟨rfl, rfl⟩ := Prod.mk.inj (Except.ok.inj (hexpanded.symm.trans hnext))
        apply ih
        intro s hs
        rcases List.mem_append.mp hs with hs | hs
        · exact (Resolver.of_mem_forwarded hproject.coherent ht hs).1
        · exact hstack s (List.mem_cons_of_mem t hs)
  | case4 trace t rest hfresh himpossible ih =>
      rw [expandAll, if_neg hfresh, if_neg himpossible]
      exact ih fun s hs => hstack s (List.mem_cons_of_mem t hs)

end

/-! ## Hook calls -/

/-- The names by which a file can call the hook. -/
def hookNames (r : Resolver) (unit : SourceUnit) : Except Fault KeySet := do
  let bindings ← imports unit
  let imported := bindings.filterMap fun binding =>
    if binding.module = r.config.module && binding.importedName = r.config.name then
      some binding.localName
    else none
  return KeySet.ofList (if r.config.requireImport then imported else r.config.name :: imported)

/-- The namespace that a hook call asks for: a literal one, or an expression. -/
def hookSpace (call : Cursor) : Except Fault (Except Cursor (Option Text)) :=
  if call.argumentNodes.isEmpty then .ok (.ok none)
  else do
    let argument ← entry call.argumentNodes 0
    match ← stringValue? (some argument) with
    | some literal =>
        return if literal.isEmpty || literal = Key.defaultNamespace then .ok none
          else .ok (some literal)
    | none => return .error argument

/-- The translators that a hook call makes. -/
def bindHookCall (r : Resolver) (call : Cursor) (space : Option Text) (trace : Trace) :
    Except Fault (Trace × List Translator) := do
  if isA call.parent? (· == .variableDeclarator) then
    let declarator ← node call.parent?
    match declarator.child? .name with
    | some name =>
        return if declarator.hasChild .value call && name.kind = .identifier then
          (trace, [⟨name, space⟩]) else (trace, [])
    | none => return (trace, [])
  else follow r space call trace

/-- Deal with a hook call, unless that was done before. -/
def scanHookCall (r : Resolver) (trace : Trace) (call : Cursor) :
    Except Fault (Trace × List Translator) := do
  if call.key ∈ trace.hookCalls then return (trace, [])
  else
    match ← hookSpace call with
    | .ok space => bindHookCall r call space (trace.scan call)
    | .error argument =>
        let place ← span argument
        return ((trace.scan call).recordHook ⟨place, none, .nonLiteralNamespace, r.config.name⟩, [])

/-- The translators that the hook calls of a file make, in source order. -/
def hookTranslators (r : Resolver) (unit : SourceUnit) (trace : Trace) :
    Except Fault (Trace × List Translator) := do
  let names ← hookNames r unit
  (unit.cursors.filter (Resolver.isHookCall names)).foldlM
    (fun (before, found) call => do
      let (after, more) ← scanHookCall r before call
      return (after, found ++ more))
    (trace, [])

/-- Resolve the translators of one file. -/
def resolveUnit (r : Resolver) (trace : Trace) (unit : SourceUnit) : Except Fault Trace := do
  let (scanned, translators) ← hookTranslators r unit trace
  translators.foldlM (fun trace t => expandAll r (r.sites t) [t] trace) scanned

/-- Resolve all files of the project, continuing a trace. -/
def resolve (r : Resolver) (trace : Trace) : Except Fault Trace :=
  r.project.units.foldlM (resolveUnit r) trace

section

variable {r : Resolver} {call : Cursor}

theorem hookNames_eq {unit : SourceUnit} (h : unit.Sound) :
    hookNames r unit = .ok (r.hookNames unit) := by
  unfold hookNames
  rw [imports_eq h]
  rfl

theorem hookSpace_eq (h : call.Sound) : hookSpace call = .ok (Resolver.hookSpace call) := by
  unfold hookSpace Resolver.hookSpace
  cases harguments : call.argumentNodes with
  | nil => rfl
  | cons argument rest =>
      have hargument : argument.Sound :=
        h.of_mem_argumentNodes (harguments ▸ List.mem_cons_self)
      cases hliteral : argument.stringValue? <;> simp [stringValue?_some hargument, hliteral]

theorem bindHookCall_eq (hproject : r.project.Sound) (hcall : r.project.Holds call)
    (space : Option Text) (trace : Trace) :
    bindHookCall r call space trace = .ok (r.bindHookCall call space trace) := by
  have hfollow : follow r space call trace =
      .ok (match ReferenceUse.classify call with
        | .direct outer => (trace.recordCall r.config space outer, [])
        | use => (trace, r.forward space use)) := follow_eq hproject hcall space trace
  unfold bindHookCall Resolver.bindHookCall
  cases hparent : call.parent? with
  | none => exact hfollow
  | some declarator =>
      by_cases hkind : declarator.kind = .variableDeclarator
      · simp only [isA_some, hkind, beq_self_eq_true, if_true, node_some, ok_bind]
        cases declarator.child? .name with
        | none => rfl
        | some name =>
            dsimp only
            split <;> rfl
      · simp only [isA_some, beq_iff_eq, if_neg hkind]
        exact hfollow

theorem scanHookCall_eq (hproject : r.project.Sound) (hcall : r.project.Holds call)
    (trace : Trace) : scanHookCall r trace call = .ok (r.scanHookCall trace call) := by
  have hsound := hproject.of_holds hcall
  unfold scanHookCall Resolver.scanHookCall
  split
  · rfl
  · rw [hookSpace_eq hsound, ok_bind]
    cases hspace : Resolver.hookSpace call with
    | ok space => exact bindHookCall_eq hproject hcall space (trace.scan call)
    | error argument =>
        have hargument := Resolver.mem_argumentNodes_of_hookSpace hspace
        simp [span_eq (hsound.of_mem_argumentNodes hargument)]

theorem hookTranslators_eq (hproject : r.project.Sound) {unit : SourceUnit}
    (hunit : unit ∈ r.project.units) (trace : Trace) :
    hookTranslators r unit trace = .ok (r.hookTranslators unit trace) := by
  unfold hookTranslators Resolver.hookTranslators
  rw [hookNames_eq (hproject.units unit hunit), ok_bind]
  apply foldlM_eq
  rintro call hmem ⟨before, found⟩
  have hcall := ((Resolver.mem_hookCalls hunit).mp hmem).1.holds
  simp [scanHookCall_eq hproject hcall]

theorem resolveUnit_eq (hproject : r.project.Sound) {unit : SourceUnit}
    (hunit : unit ∈ r.project.units) (trace : Trace) :
    resolveUnit r trace unit = .ok (r.resolveUnit trace unit) := by
  obtain ⟨-, hfound⟩ := Resolver.run_hookTranslators hunit trace
  unfold resolveUnit Resolver.resolveUnit
  rw [hookTranslators_eq hproject hunit, ok_bind]
  apply foldlM_eq
  intro t ht before
  have hholds := (hfound t ht).holds hproject.coherent
  exact expandAll_eq hproject fun s hs => List.mem_singleton.mp hs ▸ hholds

/-- With all checks in place the resolution of a sound project gives what it gives without. -/
theorem resolve_eq (hproject : r.project.Sound) (trace : Trace) :
    resolve r trace = .ok (r.resolve trace) := by
  apply foldlM_eq
  intro unit hunit before
  exact resolveUnit_eq hproject hunit before

end

end Checked

end MessageKeys
