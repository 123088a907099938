import MessageKeys.Proofs.Usage.Worklist

/-!
# Resuming a resolution

A resolution can be resumed from any trace, one that another project or another hook left behind
included.  Usages get into a trace in three places: a translator is expanded, the result of a hook
call is called at once, or a hook call has no literal namespace.  All of them come after a hook call
was found without a mark, and no resolution leaves one without (`marked_resolve`).  So the traces
that a resolution leaves as they are are those that mark every hook call of the project
(`resolve_eq_self_iff`), and what it leaves behind is one of them.
-/

namespace MessageKeys

open Syntax Cursor

namespace Resolver

variable {r : Resolver} {trace : Trace} {unit : SourceUnit} {call : Cursor}

theorem hookTranslators_of_marked (h : ∀ call ∈ r.hookCalls unit, call.key ∈ trace.hookCalls) :
    r.hookTranslators unit trace = (trace, []) := by
  have hsame : (r.hookTranslators unit trace).1 = trace ∧
      (r.hookTranslators unit trace).2 = [] := by
    apply hookTranslators_induction (P := fun _ scanned found => scanned = trace ∧ found = [])
    · exact ⟨rfl, rfl⟩
    · rintro call hcall done scanned found ⟨rfl, rfl⟩
      rw [scanHookCall_of_marked (h call hcall)]
      exact ⟨rfl, rfl⟩
  exact Prod.ext hsame.1 hsame.2

theorem resolveUnit_of_marked (h : ∀ call ∈ r.hookCalls unit, call.key ∈ trace.hookCalls) :
    r.resolveUnit trace unit = trace := by
  unfold resolveUnit
  rw [hookTranslators_of_marked h]
  rfl

/-- Where every hook call is marked there is nothing to resolve. -/
theorem resolve_of_marked (h : ∀ call, r.HookCall call → call.key ∈ trace.hookCalls) :
    r.resolve trace = trace := by
  apply List.foldlRecOn (motive := fun after => after = trace) r.project.units
  · rfl
  · rintro after rfl unit hunit
    apply resolveUnit_of_marked
    intro call hcall
    exact h call ((mem_hookCalls hunit).mp hcall).1

/-- The traces that a resolution leaves as they are are those that mark every hook call. -/
theorem resolve_eq_self_iff :
    r.resolve trace = trace ↔ ∀ call, r.HookCall call → call.key ∈ trace.hookCalls := by
  constructor
  · intro hsame call hcall
    rw [← hsame]
    exact marked_resolve trace hcall
  · exact resolve_of_marked

/-- Resolving a second time changes nothing, from whatever trace the first resolution started: the
marks, the used keys, the usages and the dynamic usages stay as they are.  A resolution that changes
nothing is one that starts with a mark on every hook call. -/
theorem resolve_resolve (r : Resolver) (trace : Trace) :
    r.resolve (r.resolve trace) = r.resolve trace ∧
      (r.resolve trace = trace ↔ ∀ call, r.HookCall call → call.key ∈ trace.hookCalls) := by
  refine ⟨?_, resolve_eq_self_iff⟩
  apply resolve_of_marked
  intro call hcall
  exact marked_resolve trace hcall

end Resolver

end MessageKeys
