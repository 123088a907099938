import Mathlib.Data.List.Perm.Subperm
import MessageKeys.Proofs.Usage.Worklist

/-!
# The expansion of a translator ends

A translator is expanded by a loop over a stack: each turn takes a translator off the stack, and if
it has no mark yet, marks it, records the calls through it and puts those that it is handed on to in
its place (`Resolver.Turn`).  A turn may put many translators on the stack, marked ones among them,
and functions may hand a translator round in circles, so the stack by itself need not get smaller.

* What a translator is handed on to sits at a node of the project and has the same namespace
  (`placed_of_mem_forwarded`).  So only finitely many marks can be set, and the loop ends
  (`acc_turn`).  It ends with the trace that `Resolver.expand` gives (`turns_expandAll`): what
  `expandAll` would pass over as impossible never comes up.  A turn leaves no choice
  (`Turn.unique`), so there is no other end.
* A translator is expanded only if its mark is not set, and this sets it, so each node is expanded
  once at most (`Turn.marksOnce`).
* What receives a translator is a parameter or an element of an object pattern, which the grammar
  makes a named node (`named_of_mem_forward`).
-/

namespace MessageKeys

open Syntax Cursor

/-- What the grammar says of patterns: an identifier is a named node, and so is what stands left of
a default value in an object pattern. -/
structure Syntax.SourceUnit.NamesPatterns (unit : SourceUnit) : Prop where
  identifier : ∀ c ∈ unit.places, c.kind = .identifier → c.label.named = true
  left : ∀ c ∈ unit.places, c.kind = .objectAssignmentPattern →
    ∀ left, c.child? .left = some left → left.label.named = true

/-- The named nodes of the files of a project. -/
def Project.namedNodes (project : Project) : List Cursor :=
  project.units.flatMap fun unit => unit.places.filter fun c => c.label.named

theorem Project.Holds.mem_namedNodes {project : Project} {c : Cursor} (h : project.Holds c)
    (hnamed : c.label.named = true) : c ∈ project.namedNodes :=
  List.mem_flatMap.mpr ⟨c.unit, h.1, List.mem_filter.mpr ⟨mem_unit_places.mpr h.2, hnamed⟩⟩

namespace Resolver

/-- An expansion under way: the translators that wait, the trace, and the translators that were
expanded, the last one first. -/
structure Expansion where
  stack : List Translator
  trace : Trace
  expanded : List Translator

/-- One turn of an expansion takes a translator off the stack.  One with a mark is passed over, any
other one is expanded, and those that it is handed on to take its place. -/
inductive Turn (r : Resolver) : Expansion → Expansion → Prop
  | skip {t : Translator} {rest : List Translator} {trace : Trace} {expanded : List Translator}
      (hmarked : t.key ∈ trace.visited) :
      Turn r ⟨t :: rest, trace, expanded⟩ ⟨rest, trace, expanded⟩
  | expand {t : Translator} {rest : List Translator} {trace : Trace} {expanded : List Translator}
      (hfresh : t.key ∉ trace.visited) :
      Turn r ⟨t :: rest, trace, expanded⟩
        ⟨r.forwarded t ++ rest, r.expandOne t trace, t :: expanded⟩

/-- A sequence of turns. -/
def Turns (r : Resolver) : Expansion → Expansion → Prop :=
  Relation.ReflTransGen r.Turn

/-- A translator of a namespace that sits at a node of the project. -/
def Placed (r : Resolver) (space : Option Text) (t : Translator) : Prop :=
  r.project.Holds t.site ∧ t.space = space

variable {r : Resolver} {space : Option Text} {t : Translator} {before after : Expansion}

theorem placed_of_mem_forwarded (hproject : r.project.Coherent) :
    ∀ s, r.Placed space s → ∀ t ∈ r.forwarded s, r.Placed space t := by
  intro s hs t ht
  obtain ⟨hsite, hspace⟩ := of_mem_forwarded hproject hs.1 ht
  exact ⟨hsite, hspace.trans hs.2⟩

/-! ## What turns preserve -/

theorem forall_mem_forwarded_append {P : Translator → Prop} {rest : List Translator}
    (hforward : ∀ s, P s → ∀ t ∈ r.forwarded s, P t) (h : ∀ s ∈ t :: rest, P s) :
    ∀ s ∈ r.forwarded t ++ rest, P s := by
  obtain ⟨ht, hrest⟩ := List.forall_mem_cons.mp h
  exact List.forall_mem_append.mpr ⟨hforward t ht, hrest⟩

/-- What goes on from a translator to those that it is handed on to holds of all that are ever
expanded. -/
theorem Turns.forall_expanded {P : Translator → Prop}
    (hforward : ∀ s, P s → ∀ t ∈ r.forwarded s, P t) (h : r.Turns before after)
    (hstack : ∀ s ∈ before.stack, P s) (hexpanded : ∀ s ∈ before.expanded, P s) :
    ∀ s ∈ after.expanded, P s := by
  induction h using Relation.ReflTransGen.head_induction_on with
  | refl => exact hexpanded
  | head hfirst _ ih =>
      cases hfirst with
      | skip => exact ih (List.forall_mem_cons.mp hstack).2 hexpanded
      | @expand t rest _ expanded =>
          have ht := hstack t List.mem_cons_self
          refine ih (forall_mem_forwarded_append hforward hstack) ?_
          exact List.forall_mem_cons.mpr ⟨ht, hexpanded⟩

/-- The marks are those from the start and, each set once, those of the translators that were
expanded. -/
structure MarksOnce (start : Trace) (e : Expansion) : Prop where
  visited : e.trace.visited = e.expanded.map Translator.key ++ start.visited
  nodup : (e.expanded.map Translator.key).Nodup

theorem Turn.marksOnce {start : Trace} (h : r.Turn before after) (honce : MarksOnce start before) :
    MarksOnce start after := by
  cases h with
  | skip => exact ⟨honce.visited, honce.nodup⟩
  | @expand t rest trace expanded hfresh =>
      have hvisited : trace.visited = expanded.map Translator.key ++ start.visited := honce.visited
      refine ⟨?_, ?_⟩
      · rw [visited_expandOne, hvisited]
        rfl
      · rw [hvisited, List.mem_append, not_or] at hfresh
        exact List.nodup_cons.mpr ⟨hfresh.1, honce.nodup⟩

theorem Turns.marksOnce {start : Trace} (h : r.Turns before after)
    (honce : MarksOnce start before) : MarksOnce start after := by
  induction h with
  | refl => exact honce
  | tail _ hlast ih => exact hlast.marksOnce ih

/-! ## The loop ends -/

theorem Turn.unique {other : Expansion} (h : r.Turn before after) (hother : r.Turn before other) :
    after = other := by
  cases h with
  | skip hmarked =>
      cases hother with
      | skip => rfl
      | expand hfresh => exact absurd hmarked hfresh
  | expand hfresh =>
      cases hother with
      | skip hmarked => exact absurd hmarked hfresh
      | expand => rfl

/-- Turns that are taken go on to where any turns lead that leave an empty stack. -/
theorem Turns.of_turns {trace : Trace} {all : List Translator} (h : r.Turns before after)
    (hends : r.Turns before ⟨[], trace, all⟩) : r.Turns after ⟨[], trace, all⟩ := by
  have hunique : Relator.RightUnique r.Turn := fun _ _ _ => Turn.unique
  rcases Relation.ReflTransGen.total_of_right_unique hunique h hends with hforth | hback
  · exact hforth
  · -- an empty stack has no turn
    rcases hback.cases_head with rfl | ⟨_, hturn, _⟩
    · exact .refl
    · cases hturn

section Ends

variable {possible : List TranslatorKey} {stack : List Translator} {trace : Trace}

/-- There is no endless sequence of turns.  The induction is that of `expandAll`, whose measure is
the number of marks that are not set, and then the length of the stack. -/
theorem acc_turn (hproject : r.project.Coherent)
    (hpossible : ∀ s, r.Placed space s → s.key ∈ possible) (hstack : ∀ s ∈ stack, r.Placed space s)
    (expanded : List Translator) :
    Acc (fun after before => r.Turn before after) ⟨stack, trace, expanded⟩ := by
  fun_induction Resolver.expandAll r possible stack trace generalizing expanded with
  | case1 trace =>
      refine ⟨_, fun after hturn => ?_⟩
      cases hturn
  | case2 trace t rest hmarked ih =>
      refine ⟨_, fun after hturn => ?_⟩
      cases hturn with
      | skip => exact ih (List.forall_mem_cons.mp hstack).2 expanded
      | expand hfresh => exact absurd hmarked hfresh
  | case3 trace t rest hfresh _ ih =>
      refine ⟨_, fun after hturn => ?_⟩
      cases hturn with
      | skip hmarked => exact absurd hmarked hfresh
      | expand =>
          apply ih
          exact forall_mem_forwarded_append (placed_of_mem_forwarded hproject) hstack
  | case4 trace t rest _ himpossible _ =>
      exact absurd (hpossible t (hstack t List.mem_cons_self)) himpossible

/-- The turns lead to an empty stack and to the trace that `expandAll` gives, if whatever can come
onto the stack is possible. -/
theorem turns_expandAll_of_closed {P : Translator → Prop}
    (hforward : ∀ s, P s → ∀ t ∈ r.forwarded s, P t) (hpossible : ∀ s, P s → s.key ∈ possible)
    (hstack : ∀ s ∈ stack, P s) (expanded : List Translator) :
    ∃ all, r.Turns ⟨stack, trace, expanded⟩ ⟨[], r.expandAll possible stack trace, all⟩ := by
  fun_induction Resolver.expandAll r possible stack trace generalizing expanded with
  | case1 trace => exact ⟨expanded, .refl⟩
  | case2 trace t rest hmarked ih =>
      obtain ⟨all, hturns⟩ := ih (List.forall_mem_cons.mp hstack).2 expanded
      exact ⟨all, .head (.skip hmarked) hturns⟩
  | case3 trace t rest hfresh _ ih =>
      have hnext := forall_mem_forwarded_append hforward hstack
      obtain ⟨all, hturns⟩ := ih hnext (t :: expanded)
      exact ⟨all, .head (.expand hfresh) hturns⟩
  | case4 trace t rest _ himpossible _ =>
      exact absurd (hpossible t (hstack t List.mem_cons_self)) himpossible

theorem turns_expandAll (hproject : r.project.Coherent)
    (hpossible : ∀ s, r.Placed space s → s.key ∈ possible) (hstack : ∀ s ∈ stack, r.Placed space s)
    (expanded : List Translator) :
    ∃ all, r.Turns ⟨stack, trace, expanded⟩ ⟨[], r.expandAll possible stack trace, all⟩ :=
  turns_expandAll_of_closed (placed_of_mem_forwarded hproject) hpossible hstack expanded

end Ends

/-! ## Translators sit at named nodes -/

/-- An element that reads a property is named, an identifier, or left of a default value. -/
theorem of_mem_destructured {pattern element : Cursor} {property : Text}
    (h : element ∈ pattern.destructured property) :
    element.label.named = true ∨ element.kind = .identifier ∨
      ∃ part : Cursor, part.kind = .objectAssignmentPattern ∧ part.child? .left = some element := by
  obtain ⟨part, hpart, h⟩ := List.mem_filterMap.mp h
  split at h
  · -- a property by its own name
    split at h
    · exact Or.inl (Option.some.inj h ▸ (mem_namedChildren.mp hpart).2)
    · simp at h
  · -- one with a default value
    rename_i hkind
    split at h
    · rename_i left hleft
      split at h
      · exact Or.inr (Or.inr ⟨part, hkind, Option.some.inj h ▸ hleft⟩)
      · simp at h
    · simp at h
  · -- one under another name
    split at h
    · split at h
      · exact Or.inr (Or.inl (of_decide_eq_true (Option.filter_eq_some_iff.mp h).2))
      · simp at h
    · simp at h
  · simp at h

/-- What receives a translator is a named node. -/
theorem named_of_mem_forward (hnamed : ∀ unit ∈ r.project.units, unit.NamesPatterns)
    {use : ReferenceUse} (hsite : r.project.Holds t.site) (h : t ∈ r.forward space use) :
    t.site.label.named = true := by
  have hpatterns := hnamed t.site.unit hsite.1
  have hidentifier := hpatterns.identifier t.site (mem_unit_places.mpr hsite.2)
  cases use with
  | direct _ => simp [forward] at h
  | ignored => simp [forward] at h
  | positional outer index =>
      simp only [forward] at h
      split at h
      · split at h
        · rename_i hkind
          rw [List.mem_singleton.mp h] at hidentifier ⊢
          exact hidentifier hkind
        · simp at h
      · simp at h
  | property outer index name =>
      simp only [forward] at h
      split at h
      · split at h
        · obtain ⟨element, helement, rfl⟩ := List.mem_map.mp h
          rcases of_mem_destructured helement with hname | hkind | ⟨part, hkind, hleft⟩
          · exact hname
          · exact hidentifier hkind
          · have hpart := hsite.2.of_mem_lineage (mem_lineage_of_parent? (parent?_of_child? hleft))
            exact hpatterns.left part (mem_unit_places.mpr hpart) hkind element hleft
        · simp at h
      · simp at h

/-- An expansion that starts at a named node expands translators at named nodes only. -/
theorem Turns.mem_namedNodes (hproject : r.project.Coherent)
    (hnamed : ∀ unit ∈ r.project.units, unit.NamesPatterns) {trace : Trace}
    (h : r.Turns ⟨[t], trace, []⟩ after) (hsite : r.project.Holds t.site)
    (hstart : t.site.label.named = true) : ∀ s ∈ after.expanded, s.site ∈ r.project.namedNodes := by
  have hboth : ∀ s ∈ after.expanded, r.project.Holds s.site ∧ s.site.label.named = true := by
    refine h.forall_expanded ?_ (List.forall_mem_singleton.mpr ⟨hsite, hstart⟩) (by simp)
    intro s hs u hu
    have hholds := (of_mem_forwarded hproject hs.1 hu).1
    obtain ⟨n, _, hforward⟩ := mem_forwarded.mp hu
    exact ⟨hholds, named_of_mem_forward hnamed hholds hforward⟩
  intro s hs
  exact (hboth s hs).1.mem_namedNodes (hboth s hs).2

/-! ## Each node once at most -/

theorem nodup_siteKeys {expanded : List Translator} (hnodup : (expanded.map Translator.key).Nodup)
    (hspace : ∀ s ∈ expanded, s.space = space) : (expanded.map fun s => s.site.key).Nodup := by
  have hkeys : expanded.map Translator.key =
      (expanded.map fun s => s.site.key).map fun key => (key, space) := by
    rw [List.map_map]
    apply List.map_congr_left
    intro s hs
    rw [Translator.key, hspace s hs]
    rfl
  rw [hkeys] at hnodup
  exact hnodup.of_map

theorem length_le_of_nodup_siteKeys {nodes : List Cursor} {expanded : List Translator}
    (hnodup : (expanded.map fun s => s.site.key).Nodup) (hnodes : ∀ s ∈ expanded, s.site ∈ nodes) :
    expanded.length ≤ nodes.length := by
  have hsubset : (expanded.map fun s => s.site.key) ⊆ nodes.map Cursor.key := by
    intro key hkey
    obtain ⟨s, hs, rfl⟩ := List.mem_map.mp hkey
    exact List.mem_map_of_mem (hnodes s hs)
  calc expanded.length
      = (expanded.map fun s => s.site.key).length := by rw [List.length_map]
    _ ≤ (nodes.map Cursor.key).length := (hnodup.subperm hsubset).length_le
    _ = nodes.length := by rw [List.length_map]

/-- The expansion of a translator at a node of the project ends, whatever the trace holds before and
however the project hands translators round: there is no endless sequence of turns, and whatever
turns were taken lead on to the trace that `expand` gives.  After any number of turns, the
translators that were expanded have the namespace of the first one and sit at nodes of the project,
no two of them at the same node.  By the grammar these are named nodes, so there are no more
expansions than named nodes. -/
theorem expand_terminates (root : Option Text) (units : List SourceUnit) (config : HookConfig)
    (t : Translator) (trace : Trace) :
    let r : Resolver := ⟨Project.ofUnits root units, config⟩
    r.project.Holds t.site →
      Acc (fun after before => r.Turn before after) ⟨[t], trace, []⟩ ∧
      (∃ expanded, ∀ state, r.Turns ⟨[t], trace, []⟩ state →
        r.Turns state ⟨[], r.expand t trace, expanded⟩) ∧
      ∀ state, r.Turns ⟨[t], trace, []⟩ state →
        (∀ s ∈ state.expanded, r.project.Holds s.site ∧ s.space = t.space) ∧
        (state.expanded.map fun s => s.site.key).Nodup ∧
        ((∀ unit ∈ r.project.units, unit.NamesPatterns) → t.site.label.named = true →
          (∀ s ∈ state.expanded, s.site ∈ r.project.namedNodes) ∧
            state.expanded.length ≤ r.project.namedNodes.length) := by
  intro r ht
  have hproject : r.project.Coherent := Project.coherent_ofUnits root units
  have hpossible : ∀ s, r.Placed t.space s → s.key ∈ r.sites t := fun s hs =>
    key_mem_sites hs.1 hs.2
  have hstack : ∀ s ∈ [t], r.Placed t.space s := List.forall_mem_singleton.mpr ⟨ht, rfl⟩
  obtain ⟨all, hends⟩ : ∃ all, r.Turns ⟨[t], trace, []⟩ ⟨[], r.expand t trace, all⟩ :=
    turns_expandAll hproject hpossible hstack []
  refine ⟨acc_turn hproject hpossible hstack [], ⟨all, fun state h => h.of_turns hends⟩, ?_⟩
  intro state hturns
  have hplaced : ∀ s ∈ state.expanded, r.Placed t.space s :=
    hturns.forall_expanded (placed_of_mem_forwarded hproject) hstack (by simp)
  have honce : MarksOnce trace state := hturns.marksOnce ⟨rfl, List.nodup_nil⟩
  have hnodup := nodup_siteKeys honce.nodup fun s hs => (hplaced s hs).2
  refine ⟨hplaced, hnodup, fun hnamed hstart => ?_⟩
  have hnodes := hturns.mem_namedNodes hproject hnamed ht hstart
  exact ⟨hnodes, length_le_of_nodup_siteKeys hnodup hnodes⟩

theorem namesPatterns_greeting : greeting.NamesPatterns where
  identifier := by decide
  left := by
    have hnone : ∀ c ∈ greeting.places, c.kind ≠ .objectAssignmentPattern := by decide
    exact fun c hc hkind => absurd hkind (hnone c hc)

/-- The parameter of `show` is handed on to itself, and its expansion ends. -/
theorem expand_terminates_greeting :
    ∃ t : Translator, greetings.project.Holds t.site ∧ t.site.label.named = true ∧
      (∀ unit ∈ greetings.project.units, unit.NamesPatterns) ∧ t ∈ greetings.forwarded t ∧
      Acc (fun after before => greetings.Turn before after) ⟨[t], {}, []⟩ ∧
      ∃ expanded, greetings.Turns ⟨[t], {}, []⟩ ⟨[], greetings.expand t {}, expanded⟩ ∧
        expanded.length ≤ greetings.project.namedNodes.length := by
  obtain ⟨c, hc, hnamed, u, hu, hsite, hspace⟩ : ∃ c ∈ greeting.places, c.label.named = true ∧
      ∃ u ∈ greetings.forwarded ⟨c, some "home"⟩, u.site = c ∧
        u.space = some (Text.ofString "home") := by
    decide +kernel
  obtain rfl : u = ⟨c, some "home"⟩ := by
    obtain ⟨site, space⟩ := u
    exact congrArg₂ Translator.mk hsite hspace
  have hunits : greetings.project.units = [greeting] := by decide
  have hholds : greetings.project.Holds c :=
    .of_in (hunits ▸ List.mem_singleton_self greeting) (mem_unit_places.mp hc)
  have hpatterns : ∀ unit ∈ greetings.project.units, unit.NamesPatterns := by
    rw [hunits]
    exact List.forall_mem_singleton.mpr namesPatterns_greeting
  obtain ⟨hacc, ⟨expanded, hends⟩, hstates⟩ := expand_terminates none [greeting]
    { requireImport := false } ⟨c, some "home"⟩ {} hholds
  have hturns := hends _ .refl
  obtain ⟨-, -, hbound⟩ := hstates _ hturns
  exact ⟨_, hholds, hnamed, hpatterns, hu, hacc, expanded, hturns, (hbound hpatterns hnamed).2⟩

end Resolver

end MessageKeys
