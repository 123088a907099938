import MessageKeys.Proofs.Usage.Reachability

/-!
# Sessions

In a session files are added to a project, or replaced in it, and the project is resolved in
between, with any hook and always into the same trace.  Four parts of a trace are written
together: the used keys, the usages, the dynamic usages and, through them, the namespaces.
`Trace.Accounted` says how they agree:

* the used keys are the keys of the usages;
* the dynamic usages, without those of hook calls, are the usages that have no key;
* a usage with a key is a call in an added file, and its key is the literal that the call has
  as its first argument, in the namespace of the usage;
* the default namespace is never written out.

Each change that a resolution makes preserves this (`Resolver.Step.accounted`), so it holds
after every session (`Session.accounted_run`).
-/

namespace MessageKeys

open Syntax Cursor

/-- The usage is a call in the file, with the literal of the first argument as its key. -/
def Usage.CalledIn (usage : Usage) (unit : SourceUnit) : Prop :=
  ∃ call argument literal, In unit call ∧ call.kind = .callExpression ∧
    call.argumentNodes.head? = some argument ∧ argument.stringValue? = some literal ∧
    usage.key = some (Key.qualify usage.space literal) ∧ usage.span = argument.span

/-- A namespace that is written as such: it is neither empty nor the default one. -/
def Proper (space : Option Text) : Prop :=
  space ≠ some [] ∧ space ≠ some Key.defaultNamespace

/-- The parts of a trace agree with each other and with the files that were added. -/
structure Trace.Accounted (trace : Trace) (units : List SourceUnit) : Prop where
  used : ∀ key, key ∈ trace.usedKeys ↔ ∃ usage ∈ trace.usages, usage.key = some key
  dynamic : (trace.dynamicUsages.filter fun usage =>
      decide (usage.reason ≠ .nonLiteralNamespace)).map (fun usage => (usage.span, usage.space)) =
    (trace.usages.filter Usage.isDynamic).map fun usage => (usage.span, usage.space)
  literal : ∀ usage ∈ trace.usages, usage.key ≠ none → ∃ unit ∈ units, usage.CalledIn unit
  spaces : (∀ usage ∈ trace.usages, Proper usage.space) ∧
    ∀ usage ∈ trace.dynamicUsages, Proper usage.space

namespace Trace.Accounted

variable {trace : Trace} {units : List SourceUnit}

theorem empty (units : List SourceUnit) : Trace.Accounted {} units where
  used := by simp
  dynamic := rfl
  literal := by simp
  spaces := by simp

theorem mono {more : List SourceUnit} (h : trace.Accounted units) (hmore : units ⊆ more) :
    trace.Accounted more where
  used := h.used
  dynamic := h.dynamic
  literal := by
    intro usage husage hkey
    obtain ⟨unit, hunit, hcalled⟩ := h.literal usage husage hkey
    exact ⟨unit, hmore hunit, hcalled⟩
  spaces := h.spaces

/-- Recording a usage with a key keeps a trace in agreement, if the usage is a call in one of
the files. -/
theorem recordKey {key : Text} {space : Option Text} {span : SourceSpan} {unit : SourceUnit}
    (h : trace.Accounted units) (hspace : Proper space) (hunit : unit ∈ units)
    (hcalled : Usage.CalledIn ⟨some key, space, span⟩ unit) :
    (trace.recordKey key space span).Accounted units where
  used := by
    intro other
    have hold := h.used other
    simp only [Trace.recordKey, KeySet.mem_insert, List.mem_append, List.mem_singleton]
    constructor
    · rintro (rfl | hother)
      · exact ⟨_, Or.inr rfl, rfl⟩
      · obtain ⟨usage, husage, hkey⟩ := hold.mp hother
        exact ⟨usage, Or.inl husage, hkey⟩
    · rintro ⟨usage, husage | rfl, hkey⟩
      · exact Or.inr (hold.mpr ⟨usage, husage, hkey⟩)
      · exact Or.inl (Option.some.inj hkey).symm
  dynamic := by
    simpa [Trace.recordKey, Usage.isDynamic] using h.dynamic
  literal := by
    intro usage husage hkey
    rcases List.mem_append.mp husage with husage | husage
    · exact h.literal usage husage hkey
    · rw [List.mem_singleton.mp husage]
      exact ⟨unit, hunit, hcalled⟩
  spaces := by
    refine ⟨List.forall_mem_append.mpr ⟨h.spaces.1, ?_⟩, h.spaces.2⟩
    simpa using hspace

/-- Recording a usage without a key writes it to both lists. -/
theorem recordDynamic {usage : DynamicUsage} (h : trace.Accounted units)
    (hspace : Proper usage.space) (hreason : usage.reason ≠ .nonLiteralNamespace) :
    (trace.recordDynamic usage).Accounted units where
  used := by
    intro key
    rw [Trace.recordDynamic, h.used key]
    simp
  dynamic := by
    have hnew : Usage.isDynamic ⟨none, usage.space, usage.span⟩ = true := rfl
    simp only [Trace.recordDynamic, List.filter_append, List.map_append, h.dynamic]
    simp [hreason, hnew]
  literal := by
    intro other hother hkey
    rcases List.mem_append.mp hother with hother | hother
    · exact h.literal other hother hkey
    · rw [List.mem_singleton.mp hother] at hkey
      exact absurd rfl hkey
  spaces := by
    refine ⟨List.forall_mem_append.mpr ⟨h.spaces.1, ?_⟩,
      List.forall_mem_append.mpr ⟨h.spaces.2, ?_⟩⟩
    · simpa using hspace
    · simpa using hspace

/-- A hook call without a literal namespace is listed apart from the usages. -/
theorem recordHook {usage : DynamicUsage} (h : trace.Accounted units)
    (hspace : Proper usage.space) (hreason : usage.reason = .nonLiteralNamespace) :
    (trace.recordHook usage).Accounted units where
  used := h.used
  dynamic := by
    simpa [Trace.recordHook, hreason] using h.dynamic
  literal := h.literal
  spaces := by
    refine ⟨h.spaces.1, List.forall_mem_append.mpr ⟨h.spaces.2, ?_⟩⟩
    simpa using hspace

end Trace.Accounted

/-! ## What is recorded -/

namespace Resolver

variable {r : Resolver} {space : Option Text} {call : Cursor} {t : Translator}

/-- A hook call never asks for the default namespace by a name. -/
theorem proper_of_hookSpace (h : hookSpace call = .ok space) : Proper space := by
  unfold hookSpace at h
  split at h
  · obtain rfl := Except.ok.inj h
    exact ⟨by simp, by simp⟩
  · split at h
    · rename_i literal _
      split at h
      · obtain rfl := Except.ok.inj h
        exact ⟨by simp, by simp⟩
      · rename_i hname
        obtain rfl := Except.ok.inj h
        simp only [Bool.or_eq_true, List.isEmpty_iff, decide_eq_true_eq, not_or] at hname
        exact ⟨by simpa using hname.1, by simpa using hname.2⟩
    · simp at h

theorem Reaches.proper (hproject : r.project.Coherent) (h : r.Reaches t) : Proper t.space := by
  induction h with
  | start hcall hspace h =>
      rw [(h.holds hproject hcall).2]
      exact proper_of_hookSpace hspace
  | forward hs hn h ih =>
      have hsame := (of_mem_forwarded hproject (hs.holds hproject) (mem_forwarded.mpr ⟨_, hn, h⟩)).2
      rw [hsame]
      exact ih

/-- A usage is a call in the project, for a proper namespace. -/
theorem Called.holds (hproject : r.project.Coherent) (h : r.Called space call) :
    r.project.Holds call ∧ call.kind = .callExpression ∧ Proper space := by
  have houter : ∀ n : Cursor, r.project.Holds n → ReferenceUse.classify n = .direct call →
      r.project.Holds call ∧ call.kind = .callExpression := by
    intro n hn huse
    have hcall : (ReferenceUse.classify n).call? = some call := by
      rw [huse]
      rfl
    obtain ⟨hmem, hkind⟩ := ReferenceUse.of_classify hcall
    exact ⟨hn.of_mem_lineage hmem, hkind⟩
  cases h with
  | immediate hcall hspace huse =>
      obtain ⟨hholds, hkind⟩ := houter _ hcall.holds huse
      exact ⟨hholds, hkind, proper_of_hookSpace hspace⟩
  | through ht hn huse =>
      have hreference := among_of_mem_references hproject (ht.holds hproject).1 hn
      obtain ⟨hholds, hkind⟩ := houter _ hreference huse
      exact ⟨hholds, hkind, ht.proper hproject⟩

/-- Every change that a resolution makes keeps the parts of a trace in agreement. -/
theorem Step.accounted {before after : Trace} {units : List SourceUnit}
    (hproject : r.project.Coherent) (hunits : r.project.units ⊆ units)
    (hstep : r.Step before after) (h : before.Accounted units) : after.Accounted units := by
  cases hstep with
  | visit => exact ⟨h.used, h.dynamic, h.literal, h.spaces⟩
  | scan => exact ⟨h.used, h.dynamic, h.literal, h.spaces⟩
  | @call space call hcalled =>
      obtain ⟨hholds, hkind, hspace⟩ := hcalled.holds hproject
      rcases before.recordCall_cases r.config space call with
        ⟨argument, literal, hhead, hvalue, heq⟩ | ⟨span, reason, hreason, _, heq⟩
      · rw [heq]
        refine h.recordKey hspace (hunits hholds.1) ?_
        exact ⟨call, argument, literal, hholds.2, hkind, hhead, hvalue, rfl, rfl⟩
      · rw [heq]
        exact h.recordDynamic hspace hreason
  | dynamicHook => exact h.recordHook ⟨by simp, by simp⟩ rfl

end Resolver

/-! ## Sessions -/

/-- What can be done in a session. -/
inductive Action where
  | add (unit : SourceUnit)
  | resolve (config : HookConfig)

/-- A project and the trace that its resolutions share. -/
structure Session where
  project : Project
  trace : Trace

namespace Session

/-- The session without files and results. -/
def start (root : Option Text) : Session :=
  ⟨.empty root, {}⟩

/-- Add a file or resolve the project. -/
def step (session : Session) : Action → Session
  | .add unit => { session with project := session.project.add unit }
  | .resolve config =>
      { session with trace := Resolver.resolve ⟨session.project, config⟩ session.trace }

/-- Do some actions, first to last. -/
def run (root : Option Text) (actions : List Action) : Session :=
  actions.foldl step (start root)

/-- The files that actions add. -/
def added (actions : List Action) : List SourceUnit :=
  actions.filterMap fun action =>
    match action with
    | .add unit => some unit
    | .resolve _ => none

/-- The project holds added files, and the trace agrees with them. -/
structure Sound (session : Session) (units : List SourceUnit) : Prop where
  coherent : session.project.Coherent
  units_subset : session.project.units ⊆ units
  accounted : session.trace.Accounted units

theorem Sound.step {session : Session} {units : List SourceUnit} (h : session.Sound units)
    (action : Action) : (session.step action).Sound (units ++ added [action]) := by
  cases action with
  | add unit =>
      refine ⟨h.coherent.add unit, fun other hother => ?_, ?_⟩
      · rcases Project.mem_units_add hother with rfl | hother
        · exact List.mem_append_right _ List.mem_cons_self
        · exact List.mem_append_left _ (h.units_subset hother)
      · exact h.accounted.mono (List.subset_append_left _ _)
  | resolve config =>
      have hunits : units ++ added [.resolve config] = units := List.append_nil units
      rw [hunits]
      have hrun := Resolver.run_resolve ⟨session.project, config⟩ session.trace
      refine ⟨h.coherent, h.units_subset, ?_⟩
      exact hrun.invariant
        (fun _ _ hstep => hstep.accounted h.coherent h.units_subset) h.accounted

/-- After any session the used keys, the usages and the dynamic usages agree with each other and
with the files that were added. -/
theorem accounted_run (root : Option Text) (actions : List Action) :
    (run root actions).trace.Accounted (added actions) := by
  have hstart : (start root).Sound [] :=
    ⟨Project.coherent_empty root, List.Subset.refl _, .empty []⟩
  -- the session so far and the files added so far vary along the actions
  suffices hfold : ∀ (session : Session) (units : List SourceUnit), session.Sound units →
      (actions.foldl Session.step session).Sound (units ++ added actions) from
    (hfold (start root) [] hstart).accounted
  induction actions with
  | nil =>
      intro session units h
      rw [show added [] = [] from rfl, List.append_nil]
      exact h
  | cons action rest ih =>
      intro session units h
      have hadded : units ++ added (action :: rest) = units ++ added [action] ++ added rest := by
        cases action <;> simp [added]
      rw [hadded]
      exact ih (session.step action) (units ++ added [action]) (h.step action)

end Session

end MessageKeys
