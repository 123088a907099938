import MessageKeys.Proofs.Usage.Termination

/-!
# The stack of an expansion is a depth-first recursion

An expansion keeps the translators that it has still to look at on a stack.  A mark is set when a
translator is taken off the stack, not when it is put there, so one translator may wait in several
places, and it may be marked while others above it are followed, in circles too.

The recursion that this stands for has no stack (`Resolver.DepthFirst`).  Called for a translator,
it returns at once if the mark is set.  Otherwise it sets the mark, records the calls through the
translator, and calls itself for each translator that this one is handed on to.

* What lies on the stack is what the recursion has still to be called for.  Those that take the
  place of a translator are used up before anything below them is looked at
  (`depthFirst_append_iff`), so a turn of the loop takes nothing away from the recursion and adds
  nothing to it (`DepthFirst.of_turn`).
* The recursion leaves no choice (`DepthFirst.unique`).
* The loop ends, from any translator and any trace (`turns_expand`), so the recursion ends too, with
  the same trace.
-/

namespace MessageKeys

open Syntax Cursor

namespace Resolver

/-- The recursion, called for each translator of a list in turn, takes one trace to another. -/
inductive DepthFirst (r : Resolver) : List Translator → Trace → Trace → Prop
  | nil (trace : Trace) : DepthFirst r [] trace trace
  | marked {t : Translator} {rest : List Translator} {trace after : Trace}
      (hmarked : t.key ∈ trace.visited) (hrest : DepthFirst r rest trace after) :
      DepthFirst r (t :: rest) trace after
  | fresh {t : Translator} {rest : List Translator} {trace inner after : Trace}
      (hfresh : t.key ∉ trace.visited)
      (hinner : DepthFirst r ((r.uses t).flatMap (r.forward t.space))
        ((r.directCalls t).foldl (fun trace call => trace.recordCall r.config t.space call)
          (trace.visit t)) inner)
      (hrest : DepthFirst r rest inner after) : DepthFirst r (t :: rest) trace after

variable {r : Resolver} {trace after : Trace}

/-! ## The recursion on the stack -/

theorem depthFirst_nil_iff : r.DepthFirst [] trace after ↔ after = trace := by
  constructor
  · intro h
    cases h with
    | nil => rfl
  · rintro rfl
    exact .nil _

theorem depthFirst_append_iff {front back : List Translator} :
    r.DepthFirst (front ++ back) trace after ↔
      ∃ middle, r.DepthFirst front trace middle ∧ r.DepthFirst back middle after := by
  induction front generalizing trace with
  | nil => simp [depthFirst_nil_iff]
  | cons t rest ih =>
      constructor
      · intro h
        cases h with
        | marked hmarked hrest =>
            obtain ⟨middle, hfront, hback⟩ := ih.mp hrest
            exact ⟨middle, .marked hmarked hfront, hback⟩
        | fresh hfresh hinner hrest =>
            obtain ⟨middle, hfront, hback⟩ := ih.mp hrest
            exact ⟨middle, .fresh hfresh hinner hfront, hback⟩
      · rintro ⟨middle, hfront, hback⟩
        cases hfront with
        | marked hmarked hrest => exact .marked hmarked (ih.mpr ⟨middle, hrest, hback⟩)
        | fresh hfresh hinner hrest => exact .fresh hfresh hinner (ih.mpr ⟨middle, hrest, hback⟩)

/-- What the recursion does from the stack after a turn, it does from the stack before. -/
theorem DepthFirst.of_turn {before next : Expansion} (hturn : r.Turn before next)
    (h : r.DepthFirst next.stack next.trace after) :
    r.DepthFirst before.stack before.trace after := by
  cases hturn with
  | skip hmarked => exact .marked hmarked h
  | expand hfresh =>
      -- what the translator was replaced by is what the recursion calls itself for
      obtain ⟨inner, hinner, hrest⟩ := depthFirst_append_iff.mp h
      rw [expandOne_eq_foldl] at hinner
      exact .fresh hfresh hinner hrest

theorem DepthFirst.of_turns {before next : Expansion} (hturns : r.Turns before next)
    (h : r.DepthFirst next.stack next.trace after) :
    r.DepthFirst before.stack before.trace after := by
  induction hturns using Relation.ReflTransGen.head_induction_on with
  | refl => exact h
  | head hfirst _ ih => exact ih.of_turn hfirst

theorem DepthFirst.unique {translators : List Translator} {other : Trace}
    (h : r.DepthFirst translators trace after) (hother : r.DepthFirst translators trace other) :
    after = other := by
  induction h generalizing other with
  | nil trace => exact (depthFirst_nil_iff.mp hother).symm
  | marked hmarked _ ih =>
      cases hother with
      | marked _ hrest => exact ih hrest
      | fresh hfresh => exact absurd hmarked hfresh
  | fresh hfresh _ _ ihinner ihrest =>
      cases hother with
      | marked hmarked => exact absurd hmarked hfresh
      | fresh _ hinner hrest =>
          obtain rfl := ihinner hinner
          exact ihrest hrest

/-! ## The loop ends from anywhere -/

/-- The translator is the one that an expansion starts with, or it sits in the same file or in the
project and has the same namespace. -/
def Within (r : Resolver) (start t : Translator) : Prop :=
  t = start ∨ (Among (start.site.unit :: r.project.units) t.site ∧ t.space = start.space)

theorem within_of_mem_forwarded (hproject : r.project.Coherent) {start : Translator} :
    ∀ s, r.Within start s → ∀ t ∈ r.forwarded s, r.Within start t := by
  intro s hs t ht
  have hplace : s.site.unit ∈ start.site.unit :: r.project.units ∧ s.space = start.space := by
    rcases hs with rfl | ⟨hamong, hspace⟩
    · exact ⟨List.mem_cons_self, rfl⟩
    · exact ⟨hamong.1, hspace⟩
  obtain ⟨hamong, hspace⟩ :=
    among_of_mem_forwarded hproject (List.subset_cons_self _ _) hplace.1 ht
  exact Or.inr ⟨hamong, hspace.trans hplace.2⟩

theorem Within.key_mem_sites {start t : Translator} (h : r.Within start t) :
    t.key ∈ r.sites start := by
  rcases h with rfl | ⟨hamong, hspace⟩
  · exact List.mem_cons_self
  · exact key_mem_sites_of_among hamong hspace

/-- The turns from a translator lead to the trace that `expand` gives. -/
theorem turns_expand (hproject : r.project.Coherent) (t : Translator) (trace : Trace) :
    ∃ all, r.Turns ⟨[t], trace, []⟩ ⟨[], r.expand t trace, all⟩ := by
  apply turns_expandAll_of_closed (within_of_mem_forwarded hproject)
  · intro s hs
    exact hs.key_mem_sites
  · exact List.forall_mem_singleton.mpr (Or.inl rfl)

/-- Called for a translator, the recursion ends with the trace that `expand` gives and with no
other: the same marks and used keys, and the usages and dynamic usages in the same order.  The
translator, its file and the trace may be any. -/
theorem depthFirst_iff_eq_expand (root : Option Text) (units : List SourceUnit)
    (config : HookConfig) (t : Translator) (trace after : Trace) :
    let r : Resolver := ⟨Project.ofUnits root units, config⟩
    r.DepthFirst [t] trace after ↔ after = r.expand t trace := by
  intro r
  obtain ⟨all, hturns⟩ := turns_expand (r := r) (Project.coherent_ofUnits root units) t trace
  have hends : r.DepthFirst [t] trace (r.expand t trace) :=
    DepthFirst.of_turns hturns (.nil _)
  constructor
  · intro h
    exact h.unique hends
  · rintro rfl
    exact hends

end Resolver

end MessageKeys
