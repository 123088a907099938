import MessageKeys.Proofs.Usage.Reachability

/-!
# The worklist finds every translator

Translators are expanded from a stack, each identity once, over all hook calls and files with
the same marks.  That this misses nothing rests on one invariant, `Resolver.Settled`: what
follows from a marked hook call or a marked translator is marked itself or still waiting,
and the calls through it are recorded.

* Scanning a hook call puts the translators that it starts among the waiting ones
  (`Settled.scanHookCall`).
* Expanding a translator moves it from the waiting ones to the marked ones and puts those that
  it is handed to in its place (`Settled.expandOne`); expanding a stack uses it up
  (`Settled.expandAll`).
* A resolution ends with nothing waiting and with every hook call marked, so the marks are
  closed under everything that makes translators.

A mark stands for a node and a namespace.  It cuts off no path: nodes of one identity are
used alike (`uses_congr`), and hook calls of one identity are the same call
(`HookCall.eq_of_key_eq`).
-/

namespace MessageKeys

open Syntax Cursor

namespace Resolver

variable {r : Resolver} {call : Cursor} {space : Option Text} {s t : Translator}

/-! ## Marks stand for what they mark -/

/-- Hook calls are told apart by their identities. -/
theorem HookCall.eq_of_key_eq (hproject : r.project.Coherent)
    (hdistinct : ∀ unit ∈ r.project.units, (unit.cursors.map Cursor.key).Nodup) {other : Cursor}
    (h : r.HookCall call) (hother : r.HookCall other) (hkey : call.key = other.key) :
    call = other := by
  have hunit := hproject.unit_eq h.unit_mem hother.unit_mem (congrArg NodeKey.path hkey)
  refine ScopeIndex.cursor_eq_of_key_eq (hdistinct _ h.unit_mem) h.mem_cursors ?_ hkey
  rw [hunit]
  exact hother.mem_cursors

theorem forwarded_congr (hproject : r.project.Coherent) (hs : s.site.unit ∈ r.project.units)
    (ht : t.site.unit ∈ r.project.units) (hkey : s.key = t.key) :
    r.forwarded s = r.forwarded t := by
  have hspace : s.space = t.space := congrArg Prod.snd hkey
  unfold forwarded
  rw [uses_congr hproject hs ht hkey, hspace]

/-! ## The invariant -/

/-- A translator is marked or waiting. -/
def Covered (trace : Trace) (waiting : List Translator) (t : Translator) : Prop :=
  t.key ∈ trace.visited ∨ t.key ∈ waiting.map Translator.key

/-- The key of a call, if it is a literal, is among the used ones. -/
def Recorded (trace : Trace) (space : Option Text) (call : Cursor) : Prop :=
  ∀ literal, call.literalKey? = some literal → Key.qualify space literal ∈ trace.usedKeys

/-- The translators that come next are marked or waiting, and the calls are recorded. -/
structure Followed (trace : Trace) (waiting : List Translator) (space : Option Text)
    (next : Translator → Prop) (calls : Cursor → Prop) : Prop where
  covered : ∀ t, next t → Covered trace waiting t
  recorded : ∀ outer, calls outer → Recorded trace space outer

/-- What follows from the marks of a trace is marked, waiting or recorded. -/
structure Settled (r : Resolver) (trace : Trace) (waiting : List Translator) : Prop where
  hooks : ∀ call space, r.HookCall call → hookSpace call = .ok space →
    call.key ∈ trace.hookCalls →
      Followed trace waiting space (r.Starts call space)
        fun outer => ReferenceUse.classify call = .direct outer
  uses : ∀ t, t.site.unit ∈ r.project.units → t.key ∈ trace.visited →
    Followed trace waiting t.space (· ∈ r.forwarded t) fun outer => .direct outer ∈ r.uses t

theorem settled_empty (r : Resolver) : r.Settled {} [] where
  hooks := by
    intro call space _ _ hmarked
    simp at hmarked
  uses := by
    intro t _ hmarked
    simp at hmarked

theorem Recorded.mono {before after : Trace} (h : Recorded before space call)
    (hkeys : ∀ key ∈ before.usedKeys, key ∈ after.usedKeys) : Recorded after space call :=
  fun literal hliteral => hkeys _ (h literal hliteral)

theorem recorded_recordCall (trace : Trace) (config : HookConfig) (space : Option Text)
    (call : Cursor) : Recorded (trace.recordCall config space call) space call := by
  intro literal hliteral
  exact Trace.mem_usedKeys_recordCall.mpr (Or.inr ⟨literal, hliteral, rfl⟩)

theorem Run.usedKeys_subset {before after : Trace} (h : r.Run before after) :
    ∀ key ∈ before.usedKeys, key ∈ after.usedKeys := by
  intro key hkey
  refine h.invariant (P := fun trace => key ∈ trace.usedKeys) ?_ hkey
  intro before after hstep hmem
  cases hstep with
  | visit => exact hmem
  | scan => exact hmem
  | call => exact Trace.mem_usedKeys_recordCall.mpr (Or.inl hmem)
  | dynamicHook => exact hmem

theorem Run.hookCalls_subset {before after : Trace} (h : r.Run before after) :
    before.hookCalls ⊆ after.hookCalls := by
  intro key hkey
  refine h.invariant (P := fun trace => key ∈ trace.hookCalls) ?_ hkey
  intro before after hstep hmem
  cases hstep with
  | visit => exact hmem
  | scan => exact List.mem_cons_of_mem _ hmem
  | call =>
      rw [Trace.hookCalls_recordCall]
      exact hmem
  | dynamicHook => exact hmem

theorem Covered.mono {before after : Trace} {waiting left : List Translator}
    (h : Covered before waiting t) (hvisited : before.visited ⊆ after.visited)
    (hwaiting : ∀ s ∈ waiting, Covered after left s) : Covered after left t := by
  rcases h with h | h
  · exact Or.inl (hvisited h)
  · obtain ⟨s, hs, hkey⟩ := List.mem_map.mp h
    have hcovered := hwaiting s hs
    unfold Covered at hcovered ⊢
    rw [← hkey]
    exact hcovered

theorem Followed.mono {before after : Trace} {waiting left : List Translator}
    {next : Translator → Prop} {calls : Cursor → Prop}
    (h : Followed before waiting space next calls)
    (hcovered : ∀ t, Covered before waiting t → Covered after left t)
    (hkeys : ∀ key ∈ before.usedKeys, key ∈ after.usedKeys) :
    Followed after left space next calls where
  covered t ht := hcovered t (h.covered t ht)
  recorded outer houter := (h.recorded outer houter).mono hkeys

theorem covered_of_mem {trace : Trace} {waiting : List Translator} (h : t ∈ waiting) :
    Covered trace waiting t :=
  Or.inr (List.mem_map_of_mem h)

/-- A marked translator need not wait. -/
theorem Settled.drop {trace : Trace} {waiting : List Translator}
    (h : r.Settled trace (t :: waiting))
    (hmarked : t.key ∈ trace.visited) : r.Settled trace waiting := by
  have hcovered : ∀ s, Covered trace (t :: waiting) s → Covered trace waiting s := by
    intro s hs
    refine hs.mono (List.Subset.refl _) fun other hother => ?_
    rcases List.mem_cons.mp hother with rfl | hother
    · exact Or.inl hmarked
    · exact covered_of_mem hother
  refine ⟨?_, ?_⟩
  · intro call space hcall hspace hkey
    exact (h.hooks call space hcall hspace hkey).mono hcovered fun _ hkey => hkey
  · intro s hs hkey
    exact (h.uses s hs hkey).mono hcovered fun _ hkey => hkey

/-! ## Scanning a hook call -/

theorem scanHookCall_of_marked {trace : Trace} (hmarked : call.key ∈ trace.hookCalls) :
    r.scanHookCall trace call = (trace, []) := by
  unfold scanHookCall
  rw [if_pos hmarked]

/-- The first scan of a hook call marks it, finds what it starts and records the call of its
result. -/
theorem scanHookCall_of_fresh {trace : Trace} (hfresh : call.key ∉ trace.hookCalls) :
    (r.scanHookCall trace call).1.visited = trace.visited ∧
      (r.scanHookCall trace call).1.hookCalls = call.key :: trace.hookCalls ∧
      ∀ space, hookSpace call = .ok space →
        Followed (r.scanHookCall trace call).1 (r.scanHookCall trace call).2 space
          (r.Starts call space) fun outer => ReferenceUse.classify call = .direct outer := by
  unfold scanHookCall
  rw [if_neg hfresh]
  dsimp only
  split
  · rename_i space hspace
    obtain ⟨hstarts, htrace⟩ := r.bindHookCall_spec call space (trace.scan call)
    have hsame : ∀ other, hookSpace call = .ok other → other = space := by
      intro other hother
      exact Except.ok.inj (hother.symm.trans hspace)
    rcases htrace with ⟨outer, huse, heq⟩ | ⟨hnone, heq⟩
    · rw [heq]
      refine ⟨Trace.visited_recordCall _ _ _ _, Trace.hookCalls_recordCall _ _ _ _, ?_⟩
      intro other hother
      obtain rfl := hsame other hother
      refine ⟨fun t ht => covered_of_mem ((hstarts t).mpr ht), fun other hother => ?_⟩
      obtain rfl := ReferenceUse.direct.inj (huse.symm.trans hother)
      exact recorded_recordCall _ _ _ _
    · rw [heq]
      refine ⟨rfl, rfl, fun other hother => ?_⟩
      obtain rfl := hsame other hother
      exact ⟨fun t ht => covered_of_mem ((hstarts t).mpr ht),
        fun outer houter => absurd houter (hnone outer)⟩
  · rename_i argument hspace
    refine ⟨rfl, rfl, fun other hother => ?_⟩
    rw [hspace] at hother
    simp at hother

theorem mem_hookCalls_scanHookCall (trace : Trace) (call : Cursor) :
    call.key ∈ (r.scanHookCall trace call).1.hookCalls := by
  by_cases hmarked : call.key ∈ trace.hookCalls
  · rw [scanHookCall_of_marked hmarked]
    exact hmarked
  · rw [(scanHookCall_of_fresh hmarked).2.1]
    exact List.mem_cons_self

theorem Settled.scanHookCall {trace : Trace} {waiting : List Translator}
    (hproject : r.project.Coherent)
    (hdistinct : ∀ unit ∈ r.project.units, (unit.cursors.map Cursor.key).Nodup)
    (hcall : r.HookCall call) (h : r.Settled trace waiting) :
    r.Settled (r.scanHookCall trace call).1 (waiting ++ (r.scanHookCall trace call).2) := by
  by_cases hmarked : call.key ∈ trace.hookCalls
  · -- a marked call is passed over
    rw [scanHookCall_of_marked hmarked, List.append_nil]
    exact h
  · obtain ⟨hvisited, hhooks, hnew⟩ := r.scanHookCall_of_fresh hmarked
    have hkeys := (run_scanHookCall hcall trace).1.usedKeys_subset
    have hcovered : ∀ t, Covered trace waiting t →
        Covered (r.scanHookCall trace call).1 (waiting ++ (r.scanHookCall trace call).2) t := by
      intro t ht
      refine ht.mono (hvisited ▸ List.Subset.refl _) fun s hs => ?_
      exact covered_of_mem (List.mem_append_left _ hs)
    refine ⟨?_, ?_⟩
    · intro other space hother hspace hkey
      rw [hhooks] at hkey
      rcases List.mem_cons.mp hkey with hkey | hkey
      · -- only this call has the new mark
        obtain rfl := hother.eq_of_key_eq hproject hdistinct hcall hkey
        refine (hnew space hspace).mono (fun t ht => ?_) fun _ hkey => hkey
        exact ht.mono (List.Subset.refl _) fun s hs => covered_of_mem (List.mem_append_right _ hs)
      · exact (h.hooks other space hother hspace hkey).mono hcovered hkeys
    · intro t ht hkey
      rw [hvisited] at hkey
      exact (h.uses t ht hkey).mono hcovered hkeys

/-! ## Expanding translators -/

theorem hookCalls_expandOne (r : Resolver) (t : Translator) (trace : Trace) :
    (r.expandOne t trace).hookCalls = trace.hookCalls := by
  rw [expandOne_eq_foldl]
  refine List.foldlRecOn (motive := fun after : Trace => after.hookCalls = trace.hookCalls)
    (r.directCalls t) _ rfl ?_
  intro after h call _
  rw [Trace.hookCalls_recordCall]
  exact h

/-- Expanding a translator uses the literal keys of the calls through it, and no other. -/
theorem mem_usedKeys_expandOne {trace : Trace} {key : Text} :
    key ∈ (r.expandOne t trace).usedKeys ↔ key ∈ trace.usedKeys ∨
      ∃ outer literal, .direct outer ∈ r.uses t ∧ outer.literalKey? = some literal ∧
        key = Key.qualify t.space literal := by
  simp only [expandOne_eq_foldl, ← mem_directCalls]
  -- the fold starts from the trace with the mark, which uses the same keys
  have hvisit : key ∈ trace.usedKeys ↔ key ∈ (trace.visit t).usedKeys := Iff.rfl
  rw [hvisit]
  generalize trace.visit t = before
  induction r.directCalls t generalizing before with
  | nil => simp
  | cons call rest ih =>
      rw [List.foldl_cons]
      refine (ih _).trans ?_
      rw [Trace.mem_usedKeys_recordCall, or_assoc]
      simp [or_and_right, exists_or]

theorem recorded_expandOne {outer : Cursor} (houter : .direct outer ∈ r.uses t) (trace : Trace) :
    Recorded (r.expandOne t trace) t.space outer := by
  intro literal hliteral
  exact mem_usedKeys_expandOne.mpr (Or.inr ⟨outer, literal, houter, hliteral, rfl⟩)

theorem Settled.expandOne {trace : Trace} {waiting : List Translator}
    (hproject : r.project.Coherent) (ht : r.Reaches t) (h : r.Settled trace (t :: waiting)) :
    r.Settled (r.expandOne t trace) (r.forwarded t ++ waiting) := by
  have hunit := (ht.holds hproject).1
  have hkeys := (run_expandOne ht trace).usedKeys_subset
  have hvisited := r.visited_expandOne t trace
  have hcovered : ∀ s, Covered trace (t :: waiting) s →
      Covered (r.expandOne t trace) (r.forwarded t ++ waiting) s := by
    intro s hs
    refine hs.mono ?_ fun other hother => ?_
    · rw [hvisited]
      exact List.subset_cons_self _ _
    · rcases List.mem_cons.mp hother with rfl | hother
      · refine Or.inl ?_
        rw [hvisited]
        exact List.mem_cons_self
      · exact covered_of_mem (List.mem_append_right _ hother)
  refine ⟨?_, ?_⟩
  · intro call space hcall hspace hkey
    rw [hookCalls_expandOne] at hkey
    exact (h.hooks call space hcall hspace hkey).mono hcovered hkeys
  · intro s hs hkey
    rw [hvisited] at hkey
    rcases List.mem_cons.mp hkey with hkey | hkey
    · -- the node just expanded, under whichever cursor it is met
      have hspace : s.space = t.space := congrArg Prod.snd hkey
      rw [forwarded_congr hproject hs hunit hkey, uses_congr hproject hs hunit hkey, hspace]
      exact ⟨fun other hother => covered_of_mem (List.mem_append_left _ hother),
        fun outer houter => recorded_expandOne houter trace⟩
    · exact (h.uses s hs hkey).mono hcovered hkeys

/-- A stack is used up: what was waiting behind it is all that waits at the end. -/
theorem Settled.expandAll {possible : List TranslatorKey} {stack waiting : List Translator}
    {trace : Trace} (hproject : r.project.Coherent)
    (hpossible : ∀ t : Translator, r.project.Holds t.site → t.space = space → t.key ∈ possible)
    (hstack : ∀ t ∈ stack, r.Reaches t ∧ t.space = space)
    (h : r.Settled trace (stack ++ waiting)) :
    r.Settled (r.expandAll possible stack trace) waiting := by
  fun_induction Resolver.expandAll r possible stack trace with
  | case1 trace => exact h
  | case2 trace t rest hmarked ih =>
      refine ih (fun s hs => hstack s (List.mem_cons_of_mem t hs)) (h.drop ?_)
      exact hmarked
  | case3 trace t rest _ _ ih =>
      obtain ⟨ht, hspace⟩ := hstack t List.mem_cons_self
      refine ih (fun s hs => ?_) ?_
      · rcases List.mem_append.mp hs with hs | hs
        · obtain ⟨n, hn, hforward⟩ := mem_forwarded.mp hs
          have hsame := (of_mem_forwarded hproject (ht.holds hproject) hs).2
          exact ⟨.forward ht hn hforward, hsame.trans hspace⟩
        · exact hstack s (List.mem_cons_of_mem t hs)
      · rw [List.append_assoc]
        exact h.expandOne hproject ht
  | case4 trace t rest _ himpossible ih =>
      -- every translator of the project is possible, so none is ever passed over
      obtain ⟨ht, hspace⟩ := hstack t List.mem_cons_self
      exact absurd (hpossible t (ht.holds hproject) hspace) himpossible

theorem Settled.expand {waiting : List Translator} {trace : Trace}
    (hproject : r.project.Coherent) (ht : r.Reaches t) (h : r.Settled trace (t :: waiting)) :
    r.Settled (r.expand t trace) waiting := by
  refine h.expandAll hproject (fun s hs hspace => key_mem_sites hs hspace) fun s hs => ?_
  rw [List.mem_singleton.mp hs]
  exact ⟨ht, rfl⟩

/-! ## A whole resolution -/

/-- Scanning a file marks its hook calls. -/
theorem marked_hookTranslators {unit : SourceUnit} (hunit : unit ∈ r.project.units)
    (trace : Trace) :
    ∀ call ∈ r.hookCalls unit, call.key ∈ (r.hookTranslators unit trace).1.hookCalls := by
  refine hookTranslators_induction
    (P := fun done scanned _ => ∀ call ∈ done, call.key ∈ scanned.hookCalls) (by simp) ?_
  intro call hcall done scanned found hmarked other hother
  rcases List.mem_append.mp hother with hother | hother
  · have hrun := (run_scanHookCall ((mem_hookCalls hunit).mp hcall).1 scanned).1
    exact hrun.hookCalls_subset (hmarked other hother)
  · rw [List.mem_singleton.mp hother]
    exact mem_hookCalls_scanHookCall scanned call

/-- Resolving a file marks its hook calls. -/
theorem marked_resolveUnit {unit : SourceUnit} (hunit : unit ∈ r.project.units) (trace : Trace)
    (hcall : call ∈ r.hookCalls unit) : call.key ∈ (r.resolveUnit trace unit).hookCalls := by
  have hfound := (run_hookTranslators hunit trace).2
  -- expanding takes no mark away
  exact (run_foldl_expand hfound _).hookCalls_subset (marked_hookTranslators hunit trace call hcall)

/-- A resolution marks every hook call of the project, whatever the trace held before. -/
theorem marked_resolve (trace : Trace) (hcall : r.HookCall call) :
    call.key ∈ (r.resolve trace).hookCalls := by
  obtain ⟨front, back, hunits⟩ := List.append_of_mem hcall.unit_mem
  have hmem : call ∈ r.hookCalls call.unit := (mem_hookCalls hcall.unit_mem).mpr ⟨hcall, rfl⟩
  have hback : ∀ unit ∈ back, unit ∈ r.project.units := by
    intro unit hunit
    rw [hunits]
    exact List.mem_append_right _ (List.mem_cons_of_mem _ hunit)
  -- marked with its file, and the files after it take no mark away
  have hrest : ∀ before, r.Run before (back.foldl r.resolveUnit before) := fun before =>
    Run.foldl before fun unit hunit trace => run_resolveUnit (hback unit hunit) trace
  unfold resolve
  rw [hunits, List.foldl_append, List.foldl_cons]
  exact (hrest _).hookCalls_subset (marked_resolveUnit hcall.unit_mem _ hmem)

/-- Scanning a file leaves the translators that its hook calls start waiting. -/
theorem Settled.hookTranslators {trace : Trace} {unit : SourceUnit} (hproject : r.project.Coherent)
    (hdistinct : ∀ unit ∈ r.project.units, (unit.cursors.map Cursor.key).Nodup)
    (hunit : unit ∈ r.project.units) (h : r.Settled trace []) :
    r.Settled (r.hookTranslators unit trace).1 (r.hookTranslators unit trace).2 := by
  refine hookTranslators_induction (P := fun _ scanned found => r.Settled scanned found) h ?_
  intro call hcall done scanned found hsettled
  exact hsettled.scanHookCall hproject hdistinct ((mem_hookCalls hunit).mp hcall).1

/-- Expanding the waiting translators one by one leaves nothing waiting. -/
theorem Settled.foldl_expand (hproject : r.project.Coherent) {found : List Translator}
    {trace : Trace} (hfound : ∀ t ∈ found, r.Reaches t) (h : r.Settled trace found) :
    r.Settled (found.foldl (fun trace t => r.expand t trace) trace) [] := by
  induction found generalizing trace with
  | nil => exact h
  | cons t rest ih =>
      refine ih (fun s hs => hfound s (List.mem_cons_of_mem t hs)) ?_
      exact h.expand hproject (hfound t List.mem_cons_self)

/-- Resolving a file leaves nothing waiting. -/
theorem Settled.resolveUnit {trace : Trace} {unit : SourceUnit} (hproject : r.project.Coherent)
    (hdistinct : ∀ unit ∈ r.project.units, (unit.cursors.map Cursor.key).Nodup)
    (hunit : unit ∈ r.project.units) (h : r.Settled trace []) :
    r.Settled (r.resolveUnit trace unit) [] := by
  have hscanned := h.hookTranslators hproject hdistinct hunit
  exact hscanned.foldl_expand hproject (run_hookTranslators hunit trace).2

/-- A resolution leaves nothing waiting and marks every hook call of the project. -/
theorem Settled.resolve {trace : Trace} (hproject : r.project.Coherent)
    (hdistinct : ∀ unit ∈ r.project.units, (unit.cursors.map Cursor.key).Nodup)
    (h : r.Settled trace []) :
    r.Settled (r.resolve trace) [] ∧
      ∀ call, r.HookCall call → call.key ∈ (r.resolve trace).hookCalls := by
  refine ⟨?_, fun call => marked_resolve trace⟩
  refine List.foldlRecOn (motive := fun after => r.Settled after []) r.project.units _ h ?_
  intro after hsettled unit hunit
  exact hsettled.resolveUnit hproject hdistinct hunit

/-! ## Exactly the reachable translators -/

theorem Run.of_mem_visited {trace : Trace} (h : r.Run {} trace) :
    ∀ key ∈ trace.visited, ∃ t, r.Reaches t ∧ t.key = key := by
  refine h.invariant (P := fun trace => ∀ key ∈ trace.visited, ∃ t, r.Reaches t ∧ t.key = key) ?_
    (by simp)
  intro before after hstep ih
  cases hstep with
  | @visit t ht =>
      intro key hkey
      rcases List.mem_cons.mp hkey with rfl | hkey
      · exact ⟨t, ht, rfl⟩
      · exact ih key hkey
  | scan => exact ih
  | call =>
      rw [Trace.visited_recordCall]
      exact ih
  | dynamicHook => exact ih

theorem Run.of_mem_usedKeys {trace : Trace} (h : r.Run {} trace) :
    ∀ key ∈ trace.usedKeys, ∃ space call literal, r.Called space call ∧
      call.literalKey? = some literal ∧ key = Key.qualify space literal := by
  refine h.invariant (P := fun trace => ∀ key ∈ trace.usedKeys, ∃ space call literal,
    r.Called space call ∧ call.literalKey? = some literal ∧ key = Key.qualify space literal) ?_
    (by simp)
  intro before after hstep ih
  cases hstep with
  | visit => exact ih
  | scan => exact ih
  | @call space call hcalled =>
      intro key hkey
      rcases Trace.mem_usedKeys_recordCall.mp hkey with hkey | ⟨literal, hliteral, rfl⟩
      · exact ih key hkey
      · exact ⟨space, call, literal, hcalled, hliteral, rfl⟩
  | dynamicHook => exact ih

/-- Where nothing waits and every hook call is marked, every translator is marked. -/
theorem Settled.visited_of_reaches {trace : Trace} (hproject : r.project.Coherent)
    (h : r.Settled trace []) (hmarked : ∀ call, r.HookCall call → call.key ∈ trace.hookCalls)
    (ht : r.Reaches t) : t.key ∈ trace.visited := by
  have hvisited : ∀ s, Covered trace [] s → s.key ∈ trace.visited := by
    intro s hs
    exact hs.resolve_right List.not_mem_nil
  induction ht with
  | @start call space t hcall hspace hstarts =>
      exact hvisited t ((h.hooks call space hcall hspace (hmarked call hcall)).covered t hstarts)
  | @forward s t n hs hn hforward ih =>
      have hfollowed := h.uses s (hs.holds hproject).1 ih
      exact hvisited t (hfollowed.covered t (mem_forwarded.mpr ⟨n, hn, hforward⟩))

theorem Settled.recorded_of_called {trace : Trace} (hproject : r.project.Coherent)
    (h : r.Settled trace []) (hmarked : ∀ call, r.HookCall call → call.key ∈ trace.hookCalls)
    (hcalled : r.Called space call) : Recorded trace space call := by
  cases hcalled with
  | @immediate hook _ _ hcall hspace huse =>
      exact (h.hooks hook space hcall hspace (hmarked hook hcall)).recorded call huse
  | @through t n _ ht hn huse =>
      have hkey := h.visited_of_reaches hproject hmarked ht
      have hfollowed := h.uses t (ht.holds hproject).1 hkey
      exact hfollowed.recorded call (direct_mem_uses.mpr ⟨n, hn, huse⟩)

/-- A resolution from the empty trace marks the identities of the translators that can be
reached and no other, and uses the literal keys of the calls through them and no other. -/
theorem resolve_exact (root : Option Text) (units : List SourceUnit) (config : HookConfig)
    (hdistinct : ∀ unit ∈ (Project.ofUnits root units).units,
      (unit.cursors.map Cursor.key).Nodup) :
    let r : Resolver := ⟨Project.ofUnits root units, config⟩
    (∀ key, key ∈ (r.resolve {}).visited ↔ ∃ t, r.Reaches t ∧ t.key = key) ∧
      ∀ key, key ∈ (r.resolve {}).usedKeys ↔ ∃ space call literal, r.Called space call ∧
        call.literalKey? = some literal ∧ key = Key.qualify space literal := by
  intro r
  have hproject : r.project.Coherent := Project.coherent_ofUnits root units
  have hrun := r.run_resolve {}
  obtain ⟨hsettled, hmarked⟩ := r.settled_empty.resolve hproject hdistinct
  refine ⟨fun key => ⟨hrun.of_mem_visited key, ?_⟩, fun key => ⟨hrun.of_mem_usedKeys key, ?_⟩⟩
  · rintro ⟨t, ht, rfl⟩
    exact hsettled.visited_of_reaches hproject hmarked ht
  · rintro ⟨space, call, literal, hcalled, hliteral, rfl⟩
    exact hsettled.recorded_of_called hproject hmarked hcalled literal hliteral

deriving instance DecidableEq for ReferenceUse

/-- The file `const show = t => t("title", show(t)); show(useTranslations("home"));`. -/
def greeting : SourceUnit :=
  let node (kind : Kind) (start stop : Nat) (field : Option Field) (children : List Node) : Node :=
    .mk ⟨kind, true, false, start, stop, ⟨0, start⟩, field⟩ children
  let name (start stop : Nat) (field : Option Field) := node .identifier start stop field []
  let quoted (start stop : Nat) := node .string start stop none
    [node .stringFragment (start + 1) (stop - 1) none []]
  { path := "greeting.ts"
    source :=
      "const show = t => t(\"title\", show(t)); show(useTranslations(\"home\"));".toUTF8.data
    root := node .program 0 69 none
      [node .lexicalDeclaration 0 38 none
        [node .variableDeclarator 6 37 none
          [name 6 10 (some .name),
            node .arrowFunction 13 37 (some .value)
              [name 13 14 (some .parameter),
                node .callExpression 18 37 (some .body)
                  [name 18 19 (some .function),
                    node .arguments 19 37 (some .arguments)
                      [quoted 20 27,
                        node .callExpression 29 36 none
                          [name 29 33 (some .function),
                            node .arguments 33 36 (some .arguments) [name 34 35 none]]]]]]],
        node (.other "expression_statement") 39 69 none
          [node .callExpression 39 68 none
            [name 39 43 (some .function),
              node .arguments 43 68 (some .arguments)
                [node .callExpression 44 67 none
                  [name 44 59 (some .function),
                    node .arguments 59 67 (some .arguments) [quoted 60 66]]]]]] }

/-- The project with this one file, where the hook needs no import. -/
def greetings : Resolver :=
  ⟨Project.ofUnits none [greeting], { requireImport := false }⟩

/-- The translator that the parameter `t` holds is reached through the call of `show` and again
through itself, and the call of `t` is its usage. -/
theorem resolve_exact_greeting :
    (∀ unit ∈ (Project.ofUnits none [greeting]).units, (unit.cursors.map Cursor.key).Nodup) ∧
      (∃ key ∈ (greetings.resolve {}).visited, key.1.start = 13 ∧ key.2 = some "home") ∧
      Text.ofString "home.title" ∈ (greetings.resolve {}).usedKeys := by
  have hdistinct : ∀ unit ∈ (Project.ofUnits none [greeting]).units,
      (unit.cursors.map Cursor.key).Nodup := by
    decide
  have hexact := resolve_exact none [greeting] { requireImport := false } hdistinct
  have hname : (⟨Project.ofUnits none [greeting], { requireImport := false }⟩ : Resolver) =
      greetings := rfl
  rw [hname] at hexact
  obtain ⟨hvisited, hused⟩ := hexact
  obtain ⟨hook, hmem, hunit, hkind, hcallee, hspace, t, ht, hsite, n, hn, outer, _, huse,
      hliteral⟩ :
      ∃ hook ∈ greeting.cursors, hook.unit = greeting ∧ hook.kind = .callExpression ∧
        (∃ callee ∈ greeting.cursors, hook.child? .function = some callee ∧
          callee.kind = .identifier ∧ callee.text ∈ greetings.hookNames greeting) ∧
        hookSpace hook = .ok (some "home") ∧
        ∃ t ∈ greetings.forward (some "home") (ReferenceUse.classify hook),
          (t.site.label.start = 13 ∧ t.space = some "home") ∧
          ∃ n ∈ (greetings.project.index t.site.unit).references t.site,
            ∃ outer ∈ greeting.cursors, ReferenceUse.classify n = .direct outer ∧
              outer.literalKey? = some (Text.ofString "title") := by
    decide +kernel
  obtain ⟨callee, _, hcallee⟩ := hcallee
  have hcall : greetings.HookCall hook := by
    refine ⟨?_, hunit ▸ hmem, hkind, callee, hunit ▸ hcallee⟩
    rw [hunit]
    decide
  have hreaches : greetings.Reaches t := .start hcall hspace (.handed ht)
  have hqualified : Text.ofString "home.title" = Key.qualify t.space (Text.ofString "title") := by
    rw [hsite.2]
    decide
  refine ⟨hdistinct, ⟨t.key, (hvisited t.key).mpr ⟨t, hreaches, rfl⟩, hsite⟩, ?_⟩
  rw [hqualified]
  exact (hused _).mpr ⟨t.space, outer, _, .through hreaches hn huse, hliteral, rfl⟩

end Resolver

end MessageKeys
