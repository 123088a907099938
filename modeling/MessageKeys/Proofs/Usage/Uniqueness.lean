import MessageKeys.Proofs.Usage.Order

/-!
# No usage is counted twice

One call can be found in many ways: through several hook calls, through several arguments of a call
that hands a translator on, through a function that calls itself.  A trace holds it once for every
namespace all the same (`Resolver.pairwise_usages`).

The usages of a resolution come from pairs of a node and a namespace, its occurrences: a hook call,
or a reference to a translator.  No pair occurs twice (`nodup_occurrences`), since a hook call and a
translator are dealt with once, and a node refers to one binding (`key_eq_of_mem_references`).  The
place of a literal key leads back to the node of its occurrence: a literal is the argument of one
call (`eq_of_keySpan_eq`), and a call is made through one node (`eq_of_classify_direct`).

All this needs that identities tell named nodes apart (`SourceUnit.NamedApart`).  The top of a file
may be unnamed, so it is kept out of the comparison: what is called has a node around it.
-/

namespace MessageKeys

open Syntax Cursor

/-! ## Named nodes -/

namespace Syntax

/-- Identities tell the named nodes of the file apart. -/
def SourceUnit.NamedApart (unit : SourceUnit) : Prop :=
  ((unit.places.filter fun c => c.label.named).map Cursor.key).Nodup

instance (unit : SourceUnit) : Decidable unit.NamedApart :=
  inferInstanceAs (Decidable (List.Nodup _))

variable {unit : SourceUnit} {c d : Cursor}

theorem SourceUnit.NamedApart.eq_of_key_eq (h : unit.NamedApart) (hc : In unit c) (hd : In unit d)
    (hcnamed : c.label.named = true) (hdnamed : d.label.named = true) (hkey : c.key = d.key) :
    c = d := by
  apply List.inj_on_of_nodup_map h _ _ hkey
  · exact List.mem_filter.mpr ⟨mem_unit_places.mpr hc, hcnamed⟩
  · exact List.mem_filter.mpr ⟨mem_unit_places.mpr hd, hdnamed⟩

theorem unit_eq_of_mem_cursors (hc : c ∈ unit.cursors) (hd : d ∈ unit.cursors) :
    c.unit = d.unit :=
  (In.of_mem_cursors hc).unit_eq.trans (In.of_mem_cursors hd).unit_eq.symm

/-- Nodes of the walk in one role of a node are the same. -/
theorem SourceUnit.NamedApart.eq_of_hasChild (h : unit.NamedApart) {parent : Cursor} {field : Field}
    (hc : c ∈ unit.cursors) (hd : d ∈ unit.cursors) (hcparent : c.parent? = some parent)
    (hdparent : d.parent? = some parent) (hcrole : parent.hasChild field c = true)
    (hdrole : parent.hasChild field d = true) : c = d := by
  have hcnamed := named_of_mem_cursors hc (mem_lineage_of_parent? hcparent)
  have hdnamed := named_of_mem_cursors hd (mem_lineage_of_parent? hdparent)
  have hkey := key_eq_of_hasChild (unit_eq_of_mem_cursors hc hd) hcrole hdrole
  exact h.eq_of_key_eq (.of_mem_cursors hc) (.of_mem_cursors hd) hcnamed hdnamed hkey

end Syntax

/-! ## One call for every literal key -/

namespace Syntax.Cursor

variable {call other : Cursor}

/-- A literal key is the value of a named string directly in the call's list of arguments, and the
call is recorded there. -/
theorem of_literalKey? {literal : Text} (h : call.literalKey? = some literal) :
    ∃ argument list, argument.kind = .string ∧ argument.label.named = true ∧
      argument.parent? = some list ∧ list.parent? = some call ∧ Beneath call argument ∧
      call.keySpan = argument.span := by
  obtain ⟨argument, hhead, hvalue⟩ := Option.bind_eq_some_iff.mp h
  have hkind : argument.kind = .string := by
    unfold stringValue? at hvalue
    split at hvalue
    · assumption
    · simp at hvalue
  have hmem := List.mem_of_mem_head? hhead
  unfold argumentNodes at hmem
  split at hmem
  · rename_i list hlist
    split at hmem
    · have hnamed := (List.mem_filter.mp hmem).1
      refine ⟨argument, list, hkind, (mem_namedChildren.mp hnamed).2,
        parent?_of_mem_children (mem_namedChildren.mp hnamed).1, parent?_of_child? hlist,
        (Beneath.here.child? hlist).of_mem_namedChildren hnamed, ?_⟩
      rw [keySpan, hhead]
    · simp at hmem
  · simp at hmem

/-- Calls with a literal key at one place are one call. -/
theorem eq_of_keySpan_eq {project : Project} (hproject : project.Coherent)
    (hapart : ∀ unit ∈ project.units, unit.NamedApart) (hcall : Among project.units call)
    (hother : Among project.units other) (hliteral : call.literalKey? ≠ none)
    (hliteral' : other.literalKey? ≠ none) (hspan : call.keySpan = other.keySpan) :
    call = other := by
  obtain ⟨literal, hvalue⟩ := Option.ne_none_iff_exists'.mp hliteral
  obtain ⟨literal', hvalue'⟩ := Option.ne_none_iff_exists'.mp hliteral'
  obtain ⟨argument, list, hkind, hnamed, hlist, hparent, hbelow, hplace⟩ := of_literalKey? hvalue
  obtain ⟨argument', list', hkind', hnamed', hlist', hparent', hbelow', hplace'⟩ :=
    of_literalKey? hvalue'
  have hamong := hcall.beneath hbelow
  have hamong' := hother.beneath hbelow'
  have hsame : argument.span = argument'.span := by rw [← hplace, ← hplace', hspan]
  have hunit := hproject.unit_eq hamong.1 hamong'.1 (congrArg SourceSpan.path hsame)
  have hkey : argument.key = argument'.key := by
    have hstart : argument.label.start = argument'.label.start := congrArg SourceSpan.start hsame
    have hstop : argument.label.stop = argument'.label.stop := congrArg SourceSpan.stop hsame
    have hkinds : argument.label.kind = argument'.label.kind := hkind.trans hkind'.symm
    rw [key, key, hstart, hstop, hkinds, hunit]
  obtain rfl : argument = argument' := (hapart _ hamong.1).eq_of_key_eq hamong.2
    (hunit ▸ hamong'.2) hnamed hnamed' hkey
  obtain rfl := Option.some.inj (hlist.symm.trans hlist')
  exact Option.some.inj (hparent.symm.trans hparent')

end Syntax.Cursor

/-! ## One node for every call -/

namespace ReferenceUse

variable {n m call : Cursor} {unit : SourceUnit}

/-- Two nodes through which one call is made are the same, if neither is a member access. -/
theorem eq_of_classify_direct (hapart : unit.NamedApart) (hn : n ∈ unit.cursors)
    (hm : m ∈ unit.cursors) (hnkind : n.kind ≠ .memberExpression)
    (hmkind : m.kind ≠ .memberExpression) (hnuse : classify n = .direct call)
    (hmuse : classify m = .direct call) : n = m := by
  have habove : ∀ {c parent : Cursor}, c ∈ unit.cursors → c.parent? = some parent →
      parent ∈ unit.cursors := fun hc hparent =>
    mem_cursors_of_mem_lineage hc (mem_lineage_of_parent? hparent)
  have hkinds : ∀ {c d : Cursor}, c ∈ unit.cursors → d ∈ unit.cursors →
      call.hasChild .function c = true → call.hasChild .function d = true → c.kind = d.kind := by
    intro c d hc hd hcrole hdrole
    have hkey := key_eq_of_hasChild (unit_eq_of_mem_cursors hc hd) hcrole hdrole
    exact congrArg NodeKey.kind hkey
  rcases of_classify_direct hnuse with ⟨hnparent, hnrole⟩ | ⟨access, hnparent, haccess, hnrole,
      houter, hfunction⟩
  · rcases of_classify_direct hmuse with ⟨hmparent, hmrole⟩ | ⟨access, hmparent, haccess, _, _,
        hfunction⟩
    · exact hapart.eq_of_hasChild hn hm hnparent hmparent hnrole hmrole
    · -- one of them would be the member access that the other one is called through
      have hkind := hkinds hn (habove hm hmparent) hnrole hfunction
      exact absurd (hkind.trans haccess) hnkind
  · rcases of_classify_direct hmuse with ⟨hmparent, hmrole⟩ | ⟨access', hmparent, _, hmrole,
        houter', hfunction'⟩
    · have hkind := hkinds hm (habove hn hnparent) hmrole hfunction
      exact absurd (hkind.trans haccess) hmkind
    · obtain rfl := hapart.eq_of_hasChild (habove hn hnparent) (habove hm hmparent) houter houter'
        hfunction hfunction'
      exact hapart.eq_of_hasChild hn hm hnparent hmparent hnrole hmrole

end ReferenceUse

/-! ## References, each once -/

namespace Syntax.ScopeIndex

theorem nodup_references {unit : SourceUnit} (hapart : unit.NamedApart) (binding : Cursor) :
    ((ofUnit unit).references binding).Nodup := by
  have hsublist : ((ofUnit unit).references binding).Sublist unit.places := by
    unfold references
    split
    · rename_i owner howner
      obtain ⟨found, hfound, rfl⟩ := Option.map_eq_some_iff.mp howner
      have hscope := scope_mem_cursors (List.mem_reverse.mp (List.mem_of_find?_eq_some hfound))
      calc List.Sublist _ (found.scope.walkUntil (mentions binding.text)) := List.filter_sublist
        List.Sublist _ found.scope.places := walkUntil_sublist_places _ _
        List.Sublist _ unit.places := (In.of_mem_cursors hscope).places_sublist
    · exact List.nil_sublist _
  have hnamed := hsublist.filter fun c => c.label.named
  rw [List.filter_eq_self.mpr fun n hn => named_of_mem_references hn] at hnamed
  exact hapart.of_map.sublist hnamed

end Syntax.ScopeIndex

namespace Resolver

variable {r : Resolver} {call : Cursor} {t : Translator} {n : Cursor × Option Text}

/-! ## Occurrences -/

/-- The occurrence that a hook call is, if its namespace is known. -/
def hookOccurrences (call : Cursor) : List (Cursor × Option Text) :=
  match hookSpace call with
  | .ok space => [(call, space)]
  | .error _ => []

/-- The occurrences of a translator: the references to it, with its namespace. -/
def occurrences (r : Resolver) (t : Translator) : List (Cursor × Option Text) :=
  ((r.project.index t.site.unit).references t.site).map fun n => (n, t.space)

/-- The usage that an occurrence is, if it is called. -/
def occurrenceUsage? (n : Cursor × Option Text) : Option Usage :=
  (ReferenceUse.classify n.1).directCall?.map (usage n.2)

theorem fst_of_mem_hookOccurrences (h : n ∈ hookOccurrences call) : n.1 = call := by
  unfold hookOccurrences at h
  split at h
  · rw [List.mem_singleton.mp h]
  · simp at h

theorem mem_occurrences (hproject : r.project.Coherent) :
    n ∈ r.occurrences t ↔
      n.1 ∈ (ScopeIndex.ofUnit t.site.unit).references t.site ∧ n.2 = t.space := by
  rw [occurrences, hproject.index_eq, List.mem_map]
  constructor
  · rintro ⟨m, hm, rfl⟩
    exact ⟨hm, rfl⟩
  · rintro ⟨hm, hspace⟩
    exact ⟨n.1, hm, by rw [← hspace]⟩

theorem usages_expandOne_empty (r : Resolver) (t : Translator) :
    (r.expandOne t {}).usages = (r.occurrences t).filterMap occurrenceUsage? := by
  rw [usages_expandOne, directCalls, uses, occurrences, List.filterMap_map, List.filterMap_map,
    List.map_filterMap]
  rfl

theorem usages_scanHookCall_empty (r : Resolver) (call : Cursor) :
    (r.scanHookCall {} call).1.usages = (hookOccurrences call).filterMap occurrenceUsage? := by
  have hempty : call.key ∉ ({} : Trace).hookCalls := List.not_mem_nil
  unfold scanHookCall hookOccurrences
  rw [if_neg hempty]
  cases hookSpace call with
  | error argument => rfl
  | ok space =>
      rcases (r.bindHookCall_spec call space (({} : Trace).scan call)).2 with
        ⟨outer, huse, heq⟩ | ⟨hnone, heq⟩
      · have husage : occurrenceUsage? (call, space) = some (outer.usage space) := by
          simp [occurrenceUsage?, huse, ReferenceUse.directCall?]
        rw [List.filterMap_cons_some husage]
        simp only [heq, Trace.usages_recordCall]
        rfl
      · have hignored : occurrenceUsage? (call, space) = none := by
          unfold occurrenceUsage?
          cases huse : ReferenceUse.classify call with
          | direct outer => exact absurd huse (hnone outer)
          | positional _ _ | property _ _ _ | ignored => rfl
        rw [List.filterMap_cons_none hignored]
        simp only [heq]
        rfl

/-- No node occurs twice with one namespace: references of different translators differ, and no hook
call is a reference. -/
theorem nodup_occurrences (hproject : r.project.Coherent)
    (hapart : ∀ unit ∈ r.project.units, unit.NamedApart) {calls : List Cursor}
    {translators : List Translator} (hcalls : ∀ call ∈ calls, r.HookCall call)
    (hscanned : (calls.map Cursor.key).Nodup)
    (hreached : ∀ t ∈ translators, r.project.Holds t.site)
    (hvisited : (translators.map Translator.key).Nodup) :
    (calls.flatMap hookOccurrences ++ translators.flatMap r.occurrences).Nodup := by
  refine List.nodup_append.mpr ⟨?_, ?_, ?_⟩
  · refine List.nodup_flatMap.mpr ⟨fun call _ => ?_, ?_⟩
    · unfold hookOccurrences
      split <;> simp
    · refine hscanned.of_map.imp fun hne n hn hn' => hne ?_
      rw [← fst_of_mem_hookOccurrences hn, fst_of_mem_hookOccurrences hn']
  · refine List.nodup_flatMap.mpr ⟨fun t ht => ?_, ?_⟩
    · rw [occurrences, hproject.index_eq]
      refine (ScopeIndex.nodup_references (hapart _ (hreached t ht).1) t.site).map ?_
      intro m m' heq
      exact congrArg Prod.fst heq
    · apply (List.pairwise_map.mp hvisited).imp
      intro t t' hne n hn hn'
      apply hne
      obtain ⟨hmem, hspace⟩ := (mem_occurrences hproject).mp hn
      obtain ⟨hmem', hspace'⟩ := (mem_occurrences hproject).mp hn'
      have hunit : t.site.unit = t'.site.unit := by
        have ht := (In.of_mem_cursors (ScopeIndex.of_mem_references hmem).1).unit_eq
        have ht' := (In.of_mem_cursors (ScopeIndex.of_mem_references hmem').1).unit_eq
        exact ht.symm.trans ht'
      rw [← hunit] at hmem'
      exact Prod.ext (ScopeIndex.key_eq_of_mem_references hmem hmem') (hspace.symm.trans hspace')
  · rintro n hn _ hn' rfl
    obtain ⟨call, hcall, hn⟩ := List.mem_flatMap.mp hn
    obtain ⟨t, _, hn'⟩ := List.mem_flatMap.mp hn'
    obtain ⟨_, hkind, _⟩ := ScopeIndex.of_mem_references ((mem_occurrences hproject).mp hn').1
    rw [fst_of_mem_hookOccurrences hn, (hcalls call hcall).kind] at hkind
    simp [Kind.isReference] at hkind

/-! ## Usages -/

/-- A node through which a call can be made: a hook call or a reference. -/
structure Caller (r : Resolver) (n : Cursor) : Prop where
  unit_mem : n.unit ∈ r.project.units
  mem_cursors : n ∈ n.unit.cursors
  kind : n.kind ≠ .memberExpression

theorem HookCall.caller (h : r.HookCall call) : r.Caller call where
  unit_mem := h.unit_mem
  mem_cursors := h.mem_cursors
  kind := by
    rw [h.kind]
    decide

theorem caller_of_mem_occurrences (hproject : r.project.Coherent) (ht : r.project.Holds t.site)
    (hn : n ∈ r.occurrences t) : r.Caller n.1 := by
  obtain ⟨hmem, hkind, _⟩ := ScopeIndex.of_mem_references ((mem_occurrences hproject).mp hn).1
  have hunit := (In.of_mem_cursors hmem).unit_eq
  refine ⟨hunit ▸ ht.1, hunit ▸ hmem, fun heq => ?_⟩
  rw [heq] at hkind
  simp [Kind.isReference] at hkind

/-- The call of an occurrence that is a usage. -/
theorem Caller.of_occurrenceUsage? (hn : r.Caller n.1) {u : Usage}
    (hu : occurrenceUsage? n = some u) :
    ∃ call, ReferenceUse.classify n.1 = .direct call ∧ Among r.project.units call ∧
      u = call.usage n.2 := by
  obtain ⟨call, hcall, rfl⟩ := Option.map_eq_some_iff.mp hu
  have huse := ReferenceUse.directCall?_eq_some hcall
  have hamong : Among r.project.units n.1 := ⟨hn.unit_mem, .of_mem_cursors hn.mem_cursors⟩
  exact ⟨call, huse, hamong.of_mem_lineage (ReferenceUse.mem_lineage_of_classify_direct huse), rfl⟩

/-- Usages with a literal key in one namespace and at one place have one occurrence. -/
theorem Caller.eq_of_usage_eq (hproject : r.project.Coherent)
    (hapart : ∀ unit ∈ r.project.units, unit.NamedApart) {m : Cursor × Option Text}
    (hn : r.Caller n.1) (hm : r.Caller m.1) {u v : Usage} (hu : occurrenceUsage? n = some u)
    (hv : occurrenceUsage? m = some v) (hukey : u.key ≠ none) (hvkey : v.key ≠ none)
    (hspace : u.space = v.space) (hspan : u.span = v.span) : n = m := by
  obtain ⟨call, hnuse, hamong, rfl⟩ := hn.of_occurrenceUsage? hu
  obtain ⟨call', hmuse, hamong', rfl⟩ := hm.of_occurrenceUsage? hv
  have hliteral : call.literalKey? ≠ none := by simpa [usage] using hukey
  have hliteral' : call'.literalKey? ≠ none := by simpa [usage] using hvkey
  obtain rfl : call = call' :=
    eq_of_keySpan_eq hproject hapart hamong hamong' hliteral hliteral' hspan
  have hunit : n.1.unit = m.1.unit := by
    have hnunit := (mem_lineage_iff.mp (ReferenceUse.mem_lineage_of_classify_direct hnuse)).1
    have hmunit := (mem_lineage_iff.mp (ReferenceUse.mem_lineage_of_classify_direct hmuse)).1
    exact hnunit.symm.trans hmunit
  apply Prod.ext
  · exact ReferenceUse.eq_of_classify_direct (hapart _ hn.unit_mem) hn.mem_cursors
      (hunit ▸ hm.mem_cursors) hn.kind hm.kind hnuse hmuse
  · exact hspace

/-- No two usages with a key that a resolution from the empty trace records have the same namespace
and the same place. -/
theorem pairwise_usages (root : Option Text) (units : List SourceUnit) (config : HookConfig)
    (hapart : ∀ unit ∈ (Project.ofUnits root units).units, unit.NamedApart) :
    let r : Resolver := ⟨Project.ofUnits root units, config⟩
    (r.resolve {}).usages.Pairwise fun u v =>
      u.key ≠ none → v.key ≠ none → u.space = v.space → u.span ≠ v.span := by
  intro r
  have hproject : r.project.Coherent := Project.coherent_ofUnits root units
  obtain ⟨calls, translators, htally⟩ := (r.moves_resolve {}).tallied log_usages
  have hreached : ∀ t ∈ translators, r.project.Holds t.site := fun t ht =>
    (htally.reached t ht).holds hproject
  have hnodup := nodup_occurrences hproject hapart htally.hookCalls
    (htally.scanned ▸ htally.nodup_hookCalls) hreached (htally.visited ▸ htally.nodup_visited)
  have hcaller : ∀ n ∈ calls.flatMap hookOccurrences ++ translators.flatMap r.occurrences,
      r.Caller n.1 := by
    intro n hn
    rcases List.mem_append.mp hn with hn | hn
    · obtain ⟨call, hcall, hn⟩ := List.mem_flatMap.mp hn
      rw [fst_of_mem_hookOccurrences hn]
      exact (htally.hookCalls call hcall).caller
    · obtain ⟨t, ht, hn⟩ := List.mem_flatMap.mp hn
      exact caller_of_mem_occurrences hproject (hreached t ht) hn
  have hentries := htally.entries
  simp only [usages_scanHookCall_empty, usages_expandOne_empty] at hentries
  rw [← List.filterMap_flatMap, ← List.filterMap_flatMap, ← List.filterMap_append] at hentries
  refine (hentries.pairwise_iff ?_).mpr (List.pairwise_filterMap.mpr ?_)
  · intro u v h hv hu hspace hspan
    exact h hu hv hspace.symm hspan.symm
  · apply hnodup.imp_of_mem
    intro n m hn hm hne u hu v hv hukey hvkey hspace hspan
    exact hne ((hcaller n hn).eq_of_usage_eq hproject hapart (hcaller m hm) hu hv hukey hvkey
      hspace hspan)

/-- The function `show` calls its translator and hands it to itself, but the call is one usage. -/
theorem pairwise_usages_greeting :
    (∀ unit ∈ (Project.ofUnits none [greeting]).units, unit.NamedApart) ∧
      (greetings.resolve {}).usages.Pairwise fun u v =>
        u.key ≠ none → v.key ≠ none → u.space = v.space → u.span ≠ v.span := by
  have hapart : ∀ unit ∈ (Project.ofUnits none [greeting]).units, unit.NamedApart := by
    decide
  exact ⟨hapart, pairwise_usages none [greeting] { requireImport := false } hapart⟩

end Resolver

end MessageKeys
