import MessageKeys.Proofs.Usage.Extension
import MessageKeys.Proofs.Usage.Sessions
import MessageKeys.Proofs.Usage.Worklist

/-!
# The order of files

A translator that several files share is expanded for the file that comes first and passed
over for the others, so the usages of one file depend on the files before it.  What is found
in all does not (`Resolver.resolve_perm`):

* Projects that hold the same files under the same paths look up every path and every name
  alike, whatever the order of the files (`Project.SameFiles`), so they have the same hook
  calls and the same translators.
* A resolution scans a hook call and expands a translator only if it has no mark yet
  (`Resolver.Move`).  So each mark is set once, and a log of the trace holds what the marked
  hook calls and the marked translators add to it, each counted once (`Resolver.Tallied`).
* At the end the marks are those of all hook calls and all translators, in either order.
-/

namespace MessageKeys

open Syntax Cursor

/-! ## Projects with the same files -/

namespace Project

variable {project other : Project}

/-- The two projects hold the same files under the same paths. -/
structure SameFiles (project other : Project) : Prop where
  root : project.root = other.root
  modules : project.modules.Perm other.modules

theorem SameFiles.symm (h : project.SameFiles other) : other.SameFiles project :=
  ⟨h.root.symm, h.modules.symm⟩

theorem SameFiles.mem_units (h : project.SameFiles other) {unit : SourceUnit} :
    unit ∈ project.units ↔ unit ∈ other.units :=
  (h.modules.map _).mem_iff

theorem modules_ofUnits (root : Option Text) {units : List SourceUnit}
    (hpaths : (units.map fun unit => PathName.normalize unit.path).Nodup) :
    (ofUnits root units).modules = units.map fun unit =>
      (PathName.normalize unit.path, ⟨unit, ScopeIndex.ofUnit unit⟩) := by
  unfold ofUnits
  -- a file with a new path goes to the end, so the table grows along the list
  suffices hfold : ∀ project : Project,
      (∀ unit ∈ units, PathName.normalize unit.path ∉ Assoc.names project.modules) →
      (units.foldl add project).modules = project.modules ++ units.map fun unit =>
        (PathName.normalize unit.path, ⟨unit, ScopeIndex.ofUnit unit⟩) from
    hfold (empty root) (by simp [empty, Assoc.names])
  induction units with
  | nil => simp
  | cons unit rest ih =>
      intro project hnew
      obtain ⟨hfirst, hrest⟩ := List.nodup_cons.mp hpaths
      have hadd : (project.add unit).modules = project.modules ++
          [(PathName.normalize unit.path, ⟨unit, ScopeIndex.ofUnit unit⟩)] :=
        Assoc.insert_of_not_mem (hnew unit List.mem_cons_self)
      rw [List.foldl_cons, ih hrest, hadd, List.append_assoc]
      · rfl
      · intro later hlater
        have hother : PathName.normalize later.path ≠ PathName.normalize unit.path := by
          intro heq
          exact hfirst (List.mem_map.mpr ⟨later, hlater, heq⟩)
        have hold := hnew later (List.mem_cons_of_mem _ hlater)
        simp only [hadd, Assoc.names, List.map_append, List.map_cons, List.map_nil,
          List.mem_append, List.mem_singleton, not_or]
        exact ⟨hold, hother⟩

theorem root_ofUnits (root : Option Text) (units : List SourceUnit) :
    (ofUnits root units).root = root.map PathName.normalize := by
  unfold ofUnits
  refine List.foldlRecOn (motive := fun project : Project =>
    project.root = root.map PathName.normalize) units add rfl ?_
  intro project h unit _
  exact h

/-- Files with distinct paths make the same project in any order. -/
theorem sameFiles_ofUnits (root : Option Text) {units others : List SourceUnit}
    (hperm : units.Perm others)
    (hpaths : (units.map fun unit => PathName.normalize unit.path).Nodup) :
    (ofUnits root units).SameFiles (ofUnits root others) where
  root := by rw [root_ofUnits, root_ofUnits]
  modules := by
    rw [modules_ofUnits root hpaths, modules_ofUnits root ((hperm.map _).nodup_iff.mp hpaths)]
    exact hperm.map _

namespace SameFiles

theorem stored?_eq (h : project.SameFiles other) (hproject : project.Coherent) (path : Text) :
    project.stored? path = other.stored? path := by
  unfold stored?
  rw [Assoc.get?_of_perm h.modules hproject.nodup]

theorem coherent (h : project.SameFiles other) (hproject : project.Coherent) :
    other.Coherent where
  nodup := (h.modules.map Prod.fst).nodup_iff.mp hproject.nodup
  stored := fun entry hentry => hproject.stored entry (h.modules.mem_iff.mpr hentry)
  indexed := fun entry hentry => hproject.indexed entry (h.modules.mem_iff.mpr hentry)

theorem resolveModule?_eq (h : project.SameFiles other) (hproject : project.Coherent)
    (unit : SourceUnit) (specifier : Text) :
    project.resolveModule? unit specifier = other.resolveModule? unit specifier := by
  have hstored : project.stored? = other.stored? := funext (h.stored?_eq hproject)
  unfold resolveModule? importTarget?
  rw [h.root, hstored]

theorem keepsImports (h : project.SameFiles other) (hproject : project.Coherent) :
    project.KeepsImports other where
  coherent := hproject
  larger_coherent := h.coherent hproject
  units_subset := fun _ hunit => h.mem_units.mp hunit
  imports := fun unit _ binding _ => (h.resolveModule?_eq hproject unit binding.module).symm

end SameFiles

end Project

/-! ## The same translators -/

namespace Resolver

variable {r r' : Resolver} {call : Cursor} {space : Option Text} {s t : Translator}

/-- The two resolvers look for the same hook in projects with the same files. -/
structure Alike (r r' : Resolver) : Prop where
  config : r.config = r'.config
  files : r.project.SameFiles r'.project
  coherent : r.project.Coherent

namespace Alike

theorem symm (h : r.Alike r') : r'.Alike r :=
  ⟨h.config.symm, h.files.symm, h.files.coherent h.coherent⟩

theorem extension (h : r.Alike r') : r.Extends r' :=
  ⟨h.config.symm, h.files.keepsImports h.coherent⟩

end Alike

/-! ## Each mark is set once -/

/-- One move of a resolution: a hook call without a mark is scanned, or a translator without a
mark is expanded. -/
inductive Move (r : Resolver) : Trace → Trace → Prop
  | scan {call : Cursor} {trace : Trace} (hcall : r.HookCall call)
      (hfresh : call.key ∉ trace.hookCalls) : Move r trace (r.scanHookCall trace call).1
  | expand {t : Translator} {trace : Trace} (ht : r.Reaches t) (hfresh : t.key ∉ trace.visited) :
      Move r trace (r.expandOne t trace)

/-- A sequence of moves. -/
def Moves (r : Resolver) : Trace → Trace → Prop :=
  Relation.ReflTransGen r.Move

theorem Moves.foldl {α : Type} {f : Trace → α → Trace} {items : List α} (trace : Trace)
    (hf : ∀ item ∈ items, ∀ trace, r.Moves trace (f trace item)) :
    r.Moves trace (items.foldl f trace) := by
  refine List.foldlRecOn (motive := fun after => r.Moves trace after) items f
    Relation.ReflTransGen.refl ?_
  intro after h item hitem
  exact Relation.ReflTransGen.trans h (hf item hitem after)

theorem moves_expandAll {possible : List TranslatorKey} {stack : List Translator} {trace : Trace}
    (hstack : ∀ t ∈ stack, r.Reaches t) : r.Moves trace (r.expandAll possible stack trace) := by
  fun_induction expandAll r possible stack trace with
  | case1 trace => exact Relation.ReflTransGen.refl
  | case2 trace t rest _ ih => exact ih fun s hs => hstack s (List.mem_cons_of_mem t hs)
  | case3 trace t rest hfresh _ ih =>
      have ht := hstack t List.mem_cons_self
      refine Relation.ReflTransGen.head (.expand ht hfresh) (ih fun s hs => ?_)
      rcases List.mem_append.mp hs with hs | hs
      · obtain ⟨n, hn, hforward⟩ := mem_forwarded.mp hs
        exact .forward ht hn hforward
      · exact hstack s (List.mem_cons_of_mem t hs)
  | case4 trace t rest _ _ ih => exact ih fun s hs => hstack s (List.mem_cons_of_mem t hs)

theorem moves_hookTranslators {unit : SourceUnit} (hunit : unit ∈ r.project.units)
    (trace : Trace) : r.Moves trace (r.hookTranslators unit trace).1 := by
  refine hookTranslators_induction (P := fun _ scanned _ => r.Moves trace scanned)
    Relation.ReflTransGen.refl ?_
  intro call hcall _ scanned _ h
  have hhook := ((mem_hookCalls hunit).mp hcall).1
  by_cases hmarked : call.key ∈ scanned.hookCalls
  · rw [scanHookCall_of_marked hmarked]
    exact h
  · exact Relation.ReflTransGen.tail h (.scan hhook hmarked)

/-- A resolution is a sequence of moves. -/
theorem moves_resolve (r : Resolver) (trace : Trace) : r.Moves trace (r.resolve trace) := by
  refine Moves.foldl trace fun unit hunit trace => ?_
  have hfound := (run_hookTranslators hunit trace).2
  refine Relation.ReflTransGen.trans (moves_hookTranslators hunit trace) ?_
  refine Moves.foldl _ fun t ht trace => ?_
  exact moves_expandAll fun s hs => List.mem_singleton.mp hs ▸ hfound t ht

/-! ## What a move adds to a log -/

/-- A list in the trace that calls and hook calls are written to, whatever stands in it
already. -/
structure Log {α : Type} (log : Trace → List α) : Prop where
  empty : log {} = []
  visit : ∀ trace t, log (trace.visit t) = log trace
  scan : ∀ trace call, log (trace.scan call) = log trace
  call : ∀ trace config space call, log (trace.recordCall config space call) =
    log trace ++ log (({} : Trace).recordCall config space call)
  hook : ∀ trace usage, log (trace.recordHook usage) =
    log trace ++ log (({} : Trace).recordHook usage)

theorem log_usages : Log Trace.usages where
  empty := rfl
  visit := fun _ _ => rfl
  scan := fun _ _ => rfl
  call := by
    intro trace config space call
    rw [Trace.usages_recordCall, Trace.usages_recordCall {}]
    rfl
  hook := fun trace _ => (List.append_nil trace.usages).symm

theorem log_dynamicUsages : Log Trace.dynamicUsages where
  empty := rfl
  visit := fun _ _ => rfl
  scan := fun _ _ => rfl
  call := by
    intro trace config space call
    rw [Trace.dynamicUsages_recordCall, Trace.dynamicUsages_recordCall {}]
    rfl
  hook := fun _ _ => rfl

variable {α : Type} {log : Trace → List α}

theorem Log.expandOne (hlog : Log log) (r : Resolver) (t : Translator) (trace : Trace) :
    log (r.expandOne t trace) = log trace ++ log (r.expandOne t {}) := by
  have hcall : ∀ (before : Trace) (call : Cursor),
      log (before.recordCall r.config t.space call) =
        log before ++ log (({} : Trace).recordCall r.config t.space call) :=
    fun before call => hlog.call before r.config t.space call
  rw [expandOne_eq_foldl, expandOne_eq_foldl, Trace.foldl_recordCall hcall,
    Trace.foldl_recordCall hcall, hlog.visit, hlog.visit, hlog.empty, List.nil_append]

theorem Log.scanHookCall (hlog : Log log) {trace : Trace} (hfresh : call.key ∉ trace.hookCalls) :
    log (r.scanHookCall trace call).1 = log trace ++ log (r.scanHookCall {} call).1 := by
  have hempty : call.key ∉ ({} : Trace).hookCalls := List.not_mem_nil
  unfold Resolver.scanHookCall
  rw [if_neg hfresh, if_neg hempty]
  dsimp only
  split
  · rename_i space _
    rcases (r.bindHookCall_spec call space (trace.scan call)).2 with
      ⟨outer, huse, heq⟩ | ⟨hnone, heq⟩
    · rcases (r.bindHookCall_spec call space (({} : Trace).scan call)).2 with
        ⟨other, hother, heq'⟩ | ⟨hnone, _⟩
      · obtain rfl := ReferenceUse.direct.inj (huse.symm.trans hother)
        rw [heq, heq', hlog.call, hlog.call (({} : Trace).scan call), hlog.scan, hlog.scan,
          hlog.empty, List.nil_append]
      · exact absurd huse (hnone outer)
    · rcases (r.bindHookCall_spec call space (({} : Trace).scan call)).2 with
        ⟨other, hother, _⟩ | ⟨_, heq'⟩
      · exact absurd hother (hnone other)
      · rw [heq, heq', hlog.scan, hlog.scan, hlog.empty, List.append_nil]
  · rw [hlog.hook, hlog.hook (({} : Trace).scan call), hlog.scan, hlog.scan, hlog.empty,
      List.nil_append]

/-! ## The tally -/

/-- The marks of a trace are those of some hook calls and translators, each set once, and the log
holds what these add to it. -/
structure Tallied (r : Resolver) (log : Trace → List α) (trace : Trace) (calls : List Cursor)
    (translators : List Translator) : Prop where
  hookCalls : ∀ call ∈ calls, r.HookCall call
  reached : ∀ t ∈ translators, r.Reaches t
  scanned : calls.map Cursor.key = trace.hookCalls
  visited : translators.map Translator.key = trace.visited
  nodup_hookCalls : trace.hookCalls.Nodup
  nodup_visited : trace.visited.Nodup
  entries : (log trace).Perm (calls.flatMap (fun call => log (r.scanHookCall {} call).1) ++
    translators.flatMap fun t => log (r.expandOne t {}))

theorem tallied_empty (hlog : Log log) (r : Resolver) : r.Tallied log {} [] [] where
  hookCalls := by simp
  reached := by simp
  scanned := rfl
  visited := rfl
  nodup_hookCalls := List.nodup_nil
  nodup_visited := List.nodup_nil
  entries := by simp [hlog.empty]

theorem Move.tallied (hlog : Log log) {before after : Trace} (hmove : r.Move before after)
    {calls : List Cursor} {translators : List Translator}
    (h : r.Tallied log before calls translators) :
    ∃ calls' translators', r.Tallied log after calls' translators' := by
  cases hmove with
  | @scan call _ hcall hfresh =>
      obtain ⟨hvisited, hhooks, _⟩ := r.scanHookCall_of_fresh hfresh
      refine ⟨call :: calls, translators, ?_, h.reached, ?_, ?_, ?_, ?_, ?_⟩
      · exact List.forall_mem_cons.mpr ⟨hcall, h.hookCalls⟩
      · rw [hhooks, List.map_cons, h.scanned]
      · rw [hvisited, h.visited]
      · rw [hhooks]
        exact List.nodup_cons.mpr ⟨hfresh, h.nodup_hookCalls⟩
      · rw [hvisited]
        exact h.nodup_visited
      · rw [hlog.scanHookCall hfresh, List.flatMap_cons, List.append_assoc]
        exact List.perm_append_comm.trans (h.entries.append_left _)
  | @expand t _ ht hfresh =>
      refine ⟨calls, t :: translators, h.hookCalls, ?_, ?_, ?_, ?_, ?_, ?_⟩
      · exact List.forall_mem_cons.mpr ⟨ht, h.reached⟩
      · rw [hookCalls_expandOne, h.scanned]
      · rw [visited_expandOne, List.map_cons, h.visited]
      · rw [hookCalls_expandOne]
        exact h.nodup_hookCalls
      · rw [visited_expandOne]
        exact List.nodup_cons.mpr ⟨hfresh, h.nodup_visited⟩
      · rw [hlog.expandOne, List.flatMap_cons]
        refine (h.entries.append_right _).trans ?_
        rw [List.append_assoc]
        exact List.perm_append_comm.append_left _

theorem Moves.tallied (hlog : Log log) {trace : Trace} (h : r.Moves {} trace) :
    ∃ calls translators, r.Tallied log trace calls translators := by
  induction h with
  | refl => exact ⟨[], [], tallied_empty hlog r⟩
  | tail _ hmove ih =>
      obtain ⟨calls, translators, htally⟩ := ih
      exact hmove.tallied hlog htally

/-- Lists with the same keys, each once, give the same entries if items with the same key do. -/
theorem perm_flatMap_of_perm_map {ι κ β : Type} [DecidableEq κ] {key : ι → κ} {f g : ι → List β}
    {items others : List ι} (hperm : (items.map key).Perm (others.map key))
    (hnodup : (items.map key).Nodup)
    (hcongr : ∀ item ∈ items, ∀ other ∈ others, key item = key other → f item = g other) :
    (items.flatMap f).Perm (others.flatMap g) := by
  -- the entries as a function of the key alone
  let entry (k : κ) : List β := ((items.find? fun item => decide (key item = k)).map f).getD []
  have hitems : ∀ item ∈ items, f item = entry (key item) := by
    intro item hitem
    cases hfind : items.find? fun candidate => decide (key candidate = key item) with
    | none => simpa using List.find?_eq_none.mp hfind item hitem
    | some found =>
        have hkey : key found = key item := by simpa using List.find?_some hfind
        have heq := List.inj_on_of_nodup_map hnodup (List.mem_of_find?_eq_some hfind) hitem hkey
        simp [entry, hfind, heq]
  have hothers : ∀ other ∈ others, g other = entry (key other) := by
    intro other hother
    have hmem := hperm.mem_iff.mpr (List.mem_map_of_mem (f := key) hother)
    obtain ⟨item, hitem, hkey⟩ := List.mem_map.mp hmem
    rw [← hcongr item hitem other hother hkey, hitems item hitem, hkey]
  calc (items.flatMap f).Perm ((items.map key).flatMap entry) := by
        rw [List.flatMap_map, List.flatMap_congr hitems]
    List.Perm _ ((others.map key).flatMap entry) := hperm.flatMap_right entry
    List.Perm _ (others.flatMap g) := by rw [List.flatMap_map, List.flatMap_congr hothers]

/-! ## A whole resolution -/

/-- A resolution marks the hook calls and the translators of the project and nothing else. -/
structure MarksAll (r : Resolver) (trace : Trace) : Prop where
  hookCalls : ∀ key, key ∈ trace.hookCalls ↔ ∃ call, r.HookCall call ∧ call.key = key
  visited : ∀ key, key ∈ trace.visited ↔ ∃ t, r.Reaches t ∧ t.key = key

theorem marksAll_resolve (hproject : r.project.Coherent)
    (hdistinct : ∀ unit ∈ r.project.units, (unit.cursors.map Cursor.key).Nodup) :
    r.MarksAll (r.resolve {}) := by
  obtain ⟨hsettled, hmarked⟩ := r.settled_empty.resolve hproject hdistinct
  obtain ⟨calls, translators, htally⟩ := (r.moves_resolve {}).tallied log_usages
  refine ⟨fun key => ⟨fun hkey => ?_, ?_⟩, fun key => ⟨fun hkey => ?_, ?_⟩⟩
  · rw [← htally.scanned] at hkey
    obtain ⟨call, hcall, rfl⟩ := List.mem_map.mp hkey
    exact ⟨call, htally.hookCalls call hcall, rfl⟩
  · rintro ⟨call, hcall, rfl⟩
    exact hmarked call hcall
  · rw [← htally.visited] at hkey
    obtain ⟨t, ht, rfl⟩ := List.mem_map.mp hkey
    exact ⟨t, htally.reached t ht, rfl⟩
  · rintro ⟨t, ht, rfl⟩
    exact hsettled.visited_of_reaches hproject hmarked ht

/-- Resolvers that look for the same hook in the same files write the same log, up to its
order. -/
theorem Alike.perm_log (h : r.Alike r') (hlog : Log log)
    (hdistinct : ∀ unit ∈ r.project.units, (unit.cursors.map Cursor.key).Nodup) :
    (log (r.resolve {})).Perm (log (r'.resolve {})) := by
  have hdistinct' : ∀ unit ∈ r'.project.units, (unit.cursors.map Cursor.key).Nodup :=
    fun unit hunit => hdistinct unit (h.files.mem_units.mpr hunit)
  have hmarks := marksAll_resolve h.coherent hdistinct
  have hmarks' := marksAll_resolve h.symm.coherent hdistinct'
  obtain ⟨calls, translators, htally⟩ := (r.moves_resolve {}).tallied hlog
  obtain ⟨calls', translators', htally'⟩ := (r'.moves_resolve {}).tallied hlog
  have hcalls : (calls.map Cursor.key).Perm (calls'.map Cursor.key) := by
    rw [htally.scanned, htally'.scanned]
    refine (List.perm_ext_iff_of_nodup htally.nodup_hookCalls htally'.nodup_hookCalls).mpr
      fun key => ?_
    rw [hmarks.hookCalls, hmarks'.hookCalls]
    exact exists_congr fun call => and_congr_left' ⟨h.extension.hookCall, h.symm.extension.hookCall⟩
  have htranslators : (translators.map Translator.key).Perm (translators'.map Translator.key) := by
    rw [htally.visited, htally'.visited]
    refine (List.perm_ext_iff_of_nodup htally.nodup_visited htally'.nodup_visited).mpr
      fun key => ?_
    rw [hmarks.visited, hmarks'.visited]
    exact exists_congr fun t => and_congr_left' ⟨h.extension.reaches, h.symm.extension.reaches⟩
  refine htally.entries.trans (List.Perm.trans (List.Perm.append ?_ ?_) htally'.entries.symm)
  · refine perm_flatMap_of_perm_map hcalls (htally.scanned ▸ htally.nodup_hookCalls) ?_
    intro call hcall call' hcall' hkey
    have hhook := h.symm.extension.hookCall (htally'.hookCalls call' hcall')
    have hsame := (htally.hookCalls call hcall).eq_of_key_eq h.coherent hdistinct hhook hkey
    rw [hsame, h.extension.scanHookCall_eq hhook.holds]
  · refine perm_flatMap_of_perm_map htranslators (htally.visited ▸ htally.nodup_visited) ?_
    intro t ht t' ht' hkey
    have hunit := ((htally.reached t ht).holds h.coherent).1
    have hunit' := ((h.symm.extension.reaches (htally'.reached t' ht')).holds h.coherent).1
    have hspace : t.space = t'.space := congrArg Prod.snd hkey
    have hempty : ({} : Trace).visit t = ({} : Trace).visit t' := by
      unfold Trace.visit
      rw [hkey]
    rw [h.extension.expandOne_eq, expandOne, expandOne, recordUses, recordUses,
      uses_congr h.coherent hunit hunit' hkey, hspace, hempty]

/-- The keys that a resolution uses are those of its usages. -/
theorem mem_usedKeys_resolve (hproject : r.project.Coherent) (key : Text) :
    key ∈ (r.resolve {}).usedKeys ↔ ∃ usage ∈ (r.resolve {}).usages, usage.key = some key := by
  have haccounted : (r.resolve {}).Accounted r.project.units :=
    (r.run_resolve {}).invariant
      (fun _ _ hstep => hstep.accounted hproject (List.Subset.refl _)) (.empty _)
  exact haccounted.used key

/-- Whatever the order in which files with distinct paths are added, resolving them uses the same
keys and finds the same usages and the same dynamic usages, each as often. -/
theorem resolve_perm (root : Option Text) (config : HookConfig) {units others : List SourceUnit}
    (hperm : units.Perm others)
    (hpaths : (units.map fun unit => PathName.normalize unit.path).Nodup)
    (hdistinct : ∀ unit ∈ units, (unit.cursors.map Cursor.key).Nodup) :
    let first := Resolver.resolve ⟨Project.ofUnits root units, config⟩ {}
    let second := Resolver.resolve ⟨Project.ofUnits root others, config⟩ {}
    first.usedKeys = second.usedKeys ∧ first.usages.Perm second.usages ∧
      first.dynamicUsages.Perm second.dynamicUsages := by
  intro first second
  have halike : Alike ⟨Project.ofUnits root units, config⟩ ⟨Project.ofUnits root others, config⟩ :=
    ⟨rfl, Project.sameFiles_ofUnits root hperm hpaths, Project.coherent_ofUnits root units⟩
  have hunits : (Project.ofUnits root units).units = units := by
    rw [Project.units, Project.modules_ofUnits root hpaths, List.map_map]
    exact List.map_id units
  have husages : first.usages.Perm second.usages :=
    halike.perm_log log_usages (by rw [hunits]; exact hdistinct)
  refine ⟨KeySet.ext fun key => ?_, husages, ?_⟩
  · rw [mem_usedKeys_resolve halike.coherent, mem_usedKeys_resolve halike.symm.coherent]
    exact exists_congr fun usage => and_congr_left' husages.mem_iff
  · exact halike.perm_log log_dynamicUsages (by rw [hunits]; exact hdistinct)

/-- The file `greeting` once more, at another path. -/
def secondGreeting : SourceUnit :=
  { greeting with path := "pages/../second.ts" }

/-- Two files that each make a translator, hand it on and call it, in either order. -/
theorem resolve_perm_greetings :
    (([greeting, secondGreeting].map fun unit => PathName.normalize unit.path).Nodup ∧
      ∀ unit ∈ [greeting, secondGreeting], (unit.cursors.map Cursor.key).Nodup) ∧
    let config : HookConfig := { requireImport := false }
    let first := Resolver.resolve ⟨Project.ofUnits none [greeting, secondGreeting], config⟩ {}
    let second := Resolver.resolve ⟨Project.ofUnits none [secondGreeting, greeting], config⟩ {}
    first.usedKeys = second.usedKeys ∧ first.usages.Perm second.usages ∧
      first.dynamicUsages.Perm second.dynamicUsages := by
  have hpaths : ([greeting, secondGreeting].map fun unit =>
      PathName.normalize unit.path).Nodup := by
    decide +kernel
  have hdistinct : ∀ unit ∈ [greeting, secondGreeting], (unit.cursors.map Cursor.key).Nodup := by
    decide
  exact ⟨⟨hpaths, hdistinct⟩, resolve_perm none { requireImport := false }
    (List.Perm.swap secondGreeting greeting []) hpaths hdistinct⟩

end Resolver

end MessageKeys
