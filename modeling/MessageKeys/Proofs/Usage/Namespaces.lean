import Mathlib.Data.List.Forall2
import MessageKeys.Proofs.Usage.Reachability

/-!
# Expansions do not look at the namespace

A translator carries its namespace from the hook call to every function that it is handed to.  The
namespace is part of the marks, of every record and of every key, yet nothing in an expansion
depends on it: two expansions from one node, for two namespaces, go through the same nodes in the
same order and record the same calls (`Resolver.expand_twins`).

What the two traces have in common is their outline: the marked nodes and the recorded calls
(`Trace.Outlined`).

* Where a translator is handed to is a matter of nodes, and the namespace goes along
  (`Resolver.forwarded_eq_map`).
* A node is marked in one trace if it is marked in the other (`Outlined.mem_visited_iff`), so both
  expansions pass over the same nodes.
* Expanding a node adds the same mark and the same calls to both outlines (`Outlined.expandOne`).
-/

namespace MessageKeys

open Syntax Cursor

/-- A node as a translator of a namespace. -/
def Syntax.Cursor.translator (space : Option Text) (site : Cursor) : Translator :=
  ⟨site, space⟩

/-! ## Where a translator is handed to -/

namespace Resolver

theorem forward_eq_map (r : Resolver) (space : Option Text) (use : ReferenceUse) :
    r.forward space use = ((r.forward none use).map Translator.site).map (translator space) := by
  cases use with
  | direct call => rfl
  | ignored => rfl
  | positional call index =>
      simp only [forward]
      split
      · split <;> rfl
      · rfl
  | property call index name =>
      simp only [forward]
      split
      · split
        · simp [translator, Function.comp_def]
        · rfl
      · rfl

/-- The nodes that a translator at a node is handed to. -/
def forwardedSites (r : Resolver) (site : Cursor) : List Cursor :=
  (r.forwarded (site.translator none)).map Translator.site

theorem forwarded_eq_map (r : Resolver) (space : Option Text) (site : Cursor) :
    r.forwarded (site.translator space) = (r.forwardedSites site).map (translator space) := by
  have huses : r.uses (site.translator space) = r.uses (site.translator none) := rfl
  unfold forwardedSites forwarded
  rw [huses, List.map_flatMap, List.map_flatMap]
  apply List.flatMap_congr
  intro use _
  exact r.forward_eq_map space use

/-- A node can be reached in any namespace if it can in one. -/
theorem mem_sites_iff (r : Resolver) (space : Option Text) (start site : Cursor) :
    (site.translator space).key ∈ r.sites (start.translator space) ↔
      site.key = start.key ∨
        site.key ∈ (start.unit :: r.project.units).flatMap SourceUnit.nodeKeys := by
  simp [sites, Translator.key, translator]

end Resolver

/-! ## The outline of a trace -/

/-- The trace marks some nodes and records some calls, all for one namespace. -/
structure Trace.Outlined (config : HookConfig) (space : Option Text) (marks : List NodeKey)
    (calls : List Cursor) (trace : Trace) : Prop where
  visited : trace.visited = marks.map fun key => (key, space)
  usages : trace.usages = calls.map (usage space)
  dynamicUsages : trace.dynamicUsages =
    (calls.filter isDynamicCall).map (dynamicUsage config space)

namespace Trace.Outlined

variable {r : Resolver} {config : HookConfig} {space first second : Option Text}
  {marks : List NodeKey} {calls : List Cursor} {trace : Trace}

theorem empty (config : HookConfig) (space : Option Text) : Outlined config space [] [] {} :=
  ⟨rfl, rfl, rfl⟩

theorem mem_visited_iff (h : Outlined config space marks calls trace) (site : Cursor) :
    (site.translator space).key ∈ trace.visited ↔ site.key ∈ marks := by
  rw [h.visited]
  simp [Translator.key, translator]

theorem expandOne (h : Outlined r.config space marks calls trace) (site : Cursor) :
    Outlined r.config space (site.key :: marks) (calls ++ r.directCalls (site.translator none))
      (r.expandOne (site.translator space) trace) where
  visited := by
    rw [Resolver.visited_expandOne, h.visited]
    rfl
  usages := by
    rw [Resolver.usages_expandOne, h.usages, List.map_append]
    rfl
  dynamicUsages := by
    rw [Resolver.dynamicUsages_expandOne, h.dynamicUsages, List.filter_append, List.map_append]
    rfl

/-- Expansions of the same nodes for two namespaces keep a common outline.  The induction is that of
the first expansion; the second one goes along with it. -/
theorem expandAll {possible possible' : List TranslatorKey} {other : Trace} (sites : List Cursor)
    (hpossible : ∀ site : Cursor,
      (site.translator first).key ∈ possible ↔ (site.translator second).key ∈ possible')
    (h : Outlined r.config first marks calls trace)
    (hother : Outlined r.config second marks calls other) :
    ∃ marks' calls',
      Outlined r.config first marks' calls'
        (r.expandAll possible (sites.map (translator first)) trace) ∧
      Outlined r.config second marks' calls'
        (r.expandAll possible' (sites.map (translator second)) other) := by
  generalize hstack : sites.map (translator first) = stack
  fun_induction Resolver.expandAll r possible stack trace generalizing sites marks calls other with
  | case1 trace =>
      obtain rfl := List.map_eq_nil_iff.mp hstack
      rw [List.map_nil, Resolver.expandAll]
      exact ⟨marks, calls, h, hother⟩
  | case2 trace t rest hmarked ih =>
      obtain ⟨site, below, rfl, rfl, rfl⟩ := List.map_eq_cons_iff.mp hstack
      have hboth := (hother.mem_visited_iff site).mpr ((h.mem_visited_iff site).mp hmarked)
      rw [List.map_cons, Resolver.expandAll, if_pos hboth]
      exact ih below h hother rfl
  | case3 trace t rest hfresh hreached ih =>
      obtain ⟨site, below, rfl, rfl, rfl⟩ := List.map_eq_cons_iff.mp hstack
      have hboth : (site.translator second).key ∉ other.visited := by
        rw [hother.mem_visited_iff, ← h.mem_visited_iff]
        exact hfresh
      rw [List.map_cons, Resolver.expandAll, if_neg hboth, if_pos ((hpossible site).mp hreached),
        r.forwarded_eq_map second, ← List.map_append]
      apply ih _ (h.expandOne site) (hother.expandOne site)
      rw [r.forwarded_eq_map first, List.map_append]
  | case4 trace t rest hfresh hunreached ih =>
      obtain ⟨site, below, rfl, rfl, rfl⟩ := List.map_eq_cons_iff.mp hstack
      have hboth : (site.translator second).key ∉ other.visited := by
        rw [hother.mem_visited_iff, ← h.mem_visited_iff]
        exact hfresh
      have hneither : (site.translator second).key ∉ possible' := by
        rw [← hpossible]
        exact hunreached
      rw [List.map_cons, Resolver.expandAll, if_neg hboth, if_neg hneither]
      exact ih below h hother rfl

end Trace.Outlined

namespace Resolver

theorem outlined_expand (r : Resolver) (site : Cursor) (first second : Option Text) :
    ∃ marks calls,
      Trace.Outlined r.config first marks calls (r.expand ⟨site, first⟩ {}) ∧
      Trace.Outlined r.config second marks calls (r.expand ⟨site, second⟩ {}) := by
  apply Trace.Outlined.expandAll [site] _ (.empty r.config first) (.empty r.config second)
  intro reached
  exact (r.mem_sites_iff first site reached).trans (r.mem_sites_iff second site reached).symm

/-- Expansions from one node for two namespaces record usages that agree one by one.  They are at
the same place, and both are dynamic or neither is.  Each has the namespace of its expansion, and
the keys are made of one literal.  So do the dynamic usages, which have the same reasons. -/
theorem expand_twins (r : Resolver) (site : Cursor) (first second : Option Text) :
    List.Forall₂
        (fun u v : Usage => u.span = v.span ∧ u.isDynamic = v.isDynamic ∧
          u.space = first ∧ v.space = second ∧
          ∃ literal : Option Text, u.key = literal.map (Key.qualify first) ∧
            v.key = literal.map (Key.qualify second))
        (r.expand ⟨site, first⟩ {}).usages (r.expand ⟨site, second⟩ {}).usages ∧
      List.Forall₂
        (fun u v : DynamicUsage => u.span = v.span ∧ u.reason = v.reason ∧
          u.space = first ∧ v.space = second)
        (r.expand ⟨site, first⟩ {}).dynamicUsages (r.expand ⟨site, second⟩ {}).dynamicUsages := by
  obtain ⟨marks, calls, hfirst, hsecond⟩ := r.outlined_expand site first second
  constructor
  · rw [hfirst.usages, hsecond.usages, List.forall₂_map_left_iff, List.forall₂_map_right_iff,
      List.forall₂_same]
    intro call _
    refine ⟨rfl, ?_, rfl, rfl, call.literalKey?, rfl, rfl⟩
    simp [Usage.isDynamic, usage]
  · rw [hfirst.dynamicUsages, hsecond.dynamicUsages, List.forall₂_map_left_iff,
      List.forall₂_map_right_iff, List.forall₂_same]
    intro call _
    exact ⟨rfl, rfl, rfl, rfl⟩

end Resolver

end MessageKeys
