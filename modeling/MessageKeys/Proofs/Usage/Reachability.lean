import Mathlib.Logic.Relation
import MessageKeys.Proofs.Usage.Forwarding

/-!
# Reachable translators

Which translators a project has can be said without a stack and without marks: the hook calls
make some (`Resolver.Starts`), and each of them makes more wherever it is handed on
(`Resolver.Reaches`).  The calls through them are the usages (`Resolver.Called`).

Resolving changes a trace in four ways only, listed by `Resolver.Step`, and each change is
about a translator, a hook call or a usage in this sense.  A resolution is a sequence of
such changes (`Resolver.run_resolve`), from any trace, so whatever one change preserves
holds of every trace that is ever reached.
-/

namespace MessageKeys

open Syntax Cursor

/-- The key that a call through a translator asks for, if its first argument is a literal. -/
def Syntax.Cursor.literalKey? (call : Cursor) : Option Text :=
  call.argumentNodes.head?.bind stringValue?

/-- The call that a use makes, if it is a direct one. -/
def ReferenceUse.directCall? : ReferenceUse → Option Cursor
  | .direct call => some call
  | _ => none

theorem ReferenceUse.directCall?_eq_some {use : ReferenceUse} {call : Cursor}
    (h : use.directCall? = some call) : use = .direct call := by
  cases use with
  | direct outer => rw [Option.some.inj h]
  | positional _ _ | property _ _ _ | ignored => simp [directCall?] at h

/-- A call is recorded under its literal key, or else as a dynamic usage. -/
theorem Trace.recordCall_cases (trace : Trace) (config : HookConfig) (space : Option Text)
    (call : Cursor) :
    (∃ argument literal, call.argumentNodes.head? = some argument ∧
        argument.stringValue? = some literal ∧ trace.recordCall config space call =
          trace.recordKey (Key.qualify space literal) space argument.span) ∨
      ∃ span reason, reason ≠ .nonLiteralNamespace ∧ call.literalKey? = none ∧
        trace.recordCall config space call =
          trace.recordDynamic ⟨span, space, reason, config.name⟩ := by
  unfold recordCall literalKey?
  cases harguments : call.argumentNodes with
  | nil => exact Or.inr ⟨call.span, .missingKey, by simp, rfl, rfl⟩
  | cons argument rest =>
      cases hvalue : argument.stringValue? with
      | some literal => exact Or.inl ⟨argument, literal, rfl, hvalue, by simp [hvalue]⟩
      | none =>
          exact Or.inr ⟨argument.span, .nonLiteralKey, by simp, hvalue, by simp [hvalue]⟩

theorem Trace.mem_usedKeys_recordCall {trace : Trace} {config : HookConfig} {space : Option Text}
    {call : Cursor} {key : Text} :
    key ∈ (trace.recordCall config space call).usedKeys ↔
      key ∈ trace.usedKeys ∨
        ∃ literal, call.literalKey? = some literal ∧ key = Key.qualify space literal := by
  rcases trace.recordCall_cases config space call with
    ⟨argument, literal, hhead, hvalue, heq⟩ | ⟨span, reason, _, hnone, heq⟩
  · have hliteral : call.literalKey? = some literal := by simp [literalKey?, hhead, hvalue]
    rw [heq, hliteral]
    simp only [recordKey, KeySet.mem_insert, Option.some.injEq, exists_eq_left']
    exact Or.comm
  · rw [heq, hnone]
    simp [recordDynamic]

namespace Syntax.Cursor

/-- Where a call is recorded: at its first argument, or at the call itself if it has none. -/
def keySpan (call : Cursor) : SourceSpan :=
  match call.argumentNodes.head? with
  | some argument => argument.span
  | none => call.span

/-- The usage that a call through a translator of a namespace is. -/
def usage (space : Option Text) (call : Cursor) : Usage :=
  ⟨call.literalKey?.map (Key.qualify space), space, call.keySpan⟩

/-- The dynamic usage that a call without a literal key is. -/
def dynamicUsage (config : HookConfig) (space : Option Text) (call : Cursor) : DynamicUsage :=
  ⟨call.keySpan, space, if call.argumentNodes.isEmpty then .missingKey else .nonLiteralKey,
    config.name⟩

/-- Whether a call has no literal key. -/
def isDynamicCall (call : Cursor) : Bool :=
  call.literalKey?.isNone

end Syntax.Cursor

theorem Trace.usages_recordCall (trace : Trace) (config : HookConfig) (space : Option Text)
    (call : Cursor) :
    (trace.recordCall config space call).usages = trace.usages ++ [call.usage space] := by
  unfold recordCall usage literalKey? keySpan
  cases call.argumentNodes with
  | nil => rfl
  | cons argument rest =>
      cases hvalue : argument.stringValue? <;> simp [hvalue, recordKey, recordDynamic]

theorem Trace.dynamicUsages_recordCall (trace : Trace) (config : HookConfig)
    (space : Option Text) (call : Cursor) :
    (trace.recordCall config space call).dynamicUsages =
      trace.dynamicUsages ++ ([call].filter isDynamicCall).map (dynamicUsage config space) := by
  unfold recordCall isDynamicCall dynamicUsage literalKey? keySpan
  cases hcall : call.argumentNodes with
  | nil => simp [hcall, recordDynamic]
  | cons argument rest =>
      cases hvalue : argument.stringValue? <;> simp [hcall, hvalue, recordKey, recordDynamic]

/-- What calls add to a part of a trace is added one after the other. -/
theorem Trace.foldl_recordCall {α : Type} {log : Trace → List α} {entries : Cursor → List α}
    {config : HookConfig} {space : Option Text}
    (hlog : ∀ (trace : Trace) (call : Cursor),
      log (trace.recordCall config space call) = log trace ++ entries call)
    (calls : List Cursor) (trace : Trace) :
    log (calls.foldl (fun trace call => trace.recordCall config space call) trace) =
      log trace ++ calls.flatMap entries := by
  induction calls generalizing trace with
  | nil => simp
  | cons call rest ih => rw [List.foldl_cons, ih, hlog, List.append_assoc, List.flatMap_cons]

namespace Resolver

/-- A call of the hook by one of its names. -/
structure HookCall (r : Resolver) (call : Cursor) : Prop where
  unit_mem : call.unit ∈ r.project.units
  mem_cursors : call ∈ call.unit.cursors
  kind : call.kind = .callExpression
  callee : ∃ callee, call.child? .function = some callee ∧ callee.kind = .identifier ∧
    callee.text ∈ r.hookNames call.unit

/-- The translators that a hook call for a namespace makes: the plain name that is declared with
it, and the parameters that it is handed to. -/
inductive Starts (r : Resolver) (call : Cursor) (space : Option Text) : Translator → Prop
  | declared {declarator name : Cursor} (hparent : call.parent? = some declarator)
      (hkind : declarator.kind = .variableDeclarator)
      (hvalue : declarator.hasChild .value call = true)
      (hname : declarator.child? .name = some name) (hplain : name.kind = .identifier) :
      Starts r call space ⟨name, space⟩
  | handed {t : Translator} (h : t ∈ r.forward space (ReferenceUse.classify call)) :
      Starts r call space t

/-- The translators of a project. -/
inductive Reaches (r : Resolver) : Translator → Prop
  | start {call : Cursor} {space : Option Text} {t : Translator} (hcall : r.HookCall call)
      (hspace : hookSpace call = .ok space) (h : r.Starts call space t) : Reaches r t
  | forward {s t : Translator} {n : Cursor} (hs : Reaches r s)
      (hn : n ∈ (r.project.index s.site.unit).references s.site)
      (h : t ∈ r.forward s.space (ReferenceUse.classify n)) : Reaches r t

/-- The calls through translators of a namespace. -/
inductive Called (r : Resolver) : Option Text → Cursor → Prop
  | immediate {call outer : Cursor} {space : Option Text} (hcall : r.HookCall call)
      (hspace : hookSpace call = .ok space) (huse : ReferenceUse.classify call = .direct outer) :
      Called r space outer
  | through {t : Translator} {n outer : Cursor} (ht : r.Reaches t)
      (hn : n ∈ (r.project.index t.site.unit).references t.site)
      (huse : ReferenceUse.classify n = .direct outer) : Called r t.space outer

variable {r : Resolver} {call : Cursor} {space : Option Text} {t : Translator}

theorem mem_hookCalls {unit : SourceUnit} (hunit : unit ∈ r.project.units) :
    call ∈ r.hookCalls unit ↔ r.HookCall call ∧ call.unit = unit := by
  unfold hookCalls isHookCall
  rw [List.mem_filter]
  constructor
  · rintro ⟨hmem, htest⟩
    have heq := (In.of_mem_cursors hmem).unit_eq
    subst heq
    simp only [Bool.and_eq_true, decide_eq_true_eq] at htest
    obtain ⟨hkind, hcallee⟩ := htest
    split at hcallee
    · rename_i callee hfound
      simp only [Bool.and_eq_true, decide_eq_true_eq] at hcallee
      exact ⟨⟨hunit, hmem, hkind, callee, hfound, hcallee.1, hcallee.2⟩, rfl⟩
    · simp at hcallee
  · rintro ⟨h, rfl⟩
    obtain ⟨callee, hfound, hcallee, hname⟩ := h.callee
    refine ⟨h.mem_cursors, ?_⟩
    simp [h.kind, hfound, hcallee, hname]

theorem mem_forwarded {s : Translator} :
    t ∈ r.forwarded s ↔ ∃ n ∈ (r.project.index s.site.unit).references s.site,
      t ∈ r.forward s.space (ReferenceUse.classify n) := by
  simp [forwarded, uses]

theorem direct_mem_uses {outer : Cursor} :
    .direct outer ∈ r.uses t ↔ ∃ n ∈ (r.project.index t.site.unit).references t.site,
      ReferenceUse.classify n = .direct outer :=
  List.mem_map

/-! ## The calls through a translator -/

/-- The calls through a translator, in source order. -/
def directCalls (r : Resolver) (t : Translator) : List Cursor :=
  (r.uses t).filterMap ReferenceUse.directCall?

theorem mem_directCalls : call ∈ r.directCalls t ↔ .direct call ∈ r.uses t := by
  rw [directCalls, List.mem_filterMap]
  constructor
  · rintro ⟨use, huse, hcall⟩
    exact ReferenceUse.directCall?_eq_some hcall ▸ huse
  · intro h
    exact ⟨_, h, rfl⟩

theorem expandOne_eq_foldl (r : Resolver) (t : Translator) (trace : Trace) :
    r.expandOne t trace = (r.directCalls t).foldl
      (fun trace call => trace.recordCall r.config t.space call) (trace.visit t) := by
  unfold expandOne recordUses directCalls
  rw [List.foldl_filterMap]
  congr 1
  funext before use
  cases use <;> rfl

theorem usages_expandOne (r : Resolver) (t : Translator) (trace : Trace) :
    (r.expandOne t trace).usages = trace.usages ++ (r.directCalls t).map (usage t.space) := by
  have hcall : ∀ (before : Trace) (call : Cursor),
      (before.recordCall r.config t.space call).usages = before.usages ++ [call.usage t.space] :=
    fun before call => before.usages_recordCall r.config t.space call
  rw [expandOne_eq_foldl, Trace.foldl_recordCall hcall, List.map_eq_flatMap]
  rfl

theorem dynamicUsages_expandOne (r : Resolver) (t : Translator) (trace : Trace) :
    (r.expandOne t trace).dynamicUsages = trace.dynamicUsages ++
      ((r.directCalls t).filter isDynamicCall).map (dynamicUsage r.config t.space) := by
  have hcall : ∀ (before : Trace) (call : Cursor),
      (before.recordCall r.config t.space call).dynamicUsages = before.dynamicUsages ++
        ([call].filter isDynamicCall).map (dynamicUsage r.config t.space) :=
    fun before call => before.dynamicUsages_recordCall r.config t.space call
  rw [expandOne_eq_foldl, Trace.foldl_recordCall hcall, ← List.map_flatMap, ← List.filter_flatMap,
    List.flatMap_singleton']
  rfl

/-! ## Translators sit in the project -/

theorem HookCall.holds (h : r.HookCall call) : r.project.Holds call :=
  ⟨h.unit_mem, .of_mem_cursors h.mem_cursors⟩

theorem Starts.holds (hproject : r.project.Coherent) (hcall : r.HookCall call)
    (h : r.Starts call space t) : r.project.Holds t.site ∧ t.space = space := by
  cases h with
  | declared hparent _ _ hname _ =>
      have hdeclarator := hcall.holds.of_mem_lineage (mem_lineage_of_parent? hparent)
      exact ⟨hdeclarator.child? hname, rfl⟩
  | handed h => exact of_mem_forward_classify hproject (List.Subset.refl _) hcall.holds h

/-- What a translator is handed on to sits in the same file or in the project. -/
theorem among_of_mem_forwarded (hproject : r.project.Coherent) {units : List SourceUnit}
    (hunits : r.project.units ⊆ units) {s : Translator} (hs : s.site.unit ∈ units)
    (h : t ∈ r.forwarded s) : Among units t.site ∧ t.space = s.space := by
  obtain ⟨n, hn, hforward⟩ := mem_forwarded.mp h
  exact of_mem_forward_classify hproject hunits (among_of_mem_references hproject hs hn) hforward

theorem of_mem_forwarded (hproject : r.project.Coherent) {s : Translator}
    (hs : r.project.Holds s.site)
    (h : t ∈ r.forwarded s) : r.project.Holds t.site ∧ t.space = s.space :=
  among_of_mem_forwarded hproject (List.Subset.refl _) hs.1 h

/-- The translators of a project sit at nodes of the project. -/
theorem Reaches.holds (hproject : r.project.Coherent) (h : r.Reaches t) :
    r.project.Holds t.site := by
  induction h with
  | start hcall _ h => exact (h.holds hproject hcall).1
  | forward _ hn h ih => exact (of_mem_forwarded hproject ih (mem_forwarded.mpr ⟨_, hn, h⟩)).1

/-! ## What a hook call makes -/

theorem classify_of_declarator {declarator : Cursor} (hparent : call.parent? = some declarator)
    (hkind : declarator.kind = .variableDeclarator) : ReferenceUse.classify call = .ignored := by
  unfold ReferenceUse.classify
  rw [hparent]
  simp only [hkind]

theorem starts_iff_of_declarator {declarator : Cursor} (hparent : call.parent? = some declarator)
    (hkind : declarator.kind = .variableDeclarator) :
    r.Starts call space t ↔ ∃ name, declarator.child? .name = some name ∧
      declarator.hasChild .value call = true ∧ name.kind = .identifier ∧ t = ⟨name, space⟩ := by
  constructor
  · intro h
    cases h with
    | @declared other name hother _ hvalue hname hplain =>
        obtain rfl := Option.some.inj (hother.symm.trans hparent)
        exact ⟨name, hname, hvalue, hplain, rfl⟩
    | handed h =>
        rw [classify_of_declarator hparent hkind] at h
        simp [forward] at h
  · rintro ⟨name, hname, hvalue, hplain, rfl⟩
    exact .declared hparent hkind hvalue hname hplain

theorem starts_iff_mem_forward
    (hparent : ∀ declarator, call.parent? = some declarator →
      declarator.kind ≠ .variableDeclarator) :
    r.Starts call space t ↔ t ∈ r.forward space (ReferenceUse.classify call) := by
  constructor
  · intro h
    cases h with
    | declared hdeclarator hkind => exact absurd hkind (hparent _ hdeclarator)
    | handed h => exact h
  · exact .handed

theorem bindHookCall_of_direct {outer : Cursor} {trace : Trace}
    (hparent : ∀ declarator, call.parent? = some declarator →
      declarator.kind ≠ .variableDeclarator)
    (huse : ReferenceUse.classify call = .direct outer) :
    r.bindHookCall call space trace = (trace.recordCall r.config space outer, []) := by
  cases hfound : call.parent? with
  | none => simp only [bindHookCall, hfound, huse]
  | some declarator =>
      simp only [bindHookCall, hfound, huse, if_neg (hparent declarator hfound)]

theorem bindHookCall_of_not_direct {trace : Trace}
    (hparent : ∀ declarator, call.parent? = some declarator →
      declarator.kind ≠ .variableDeclarator)
    (huse : ∀ outer, ReferenceUse.classify call ≠ .direct outer) :
    r.bindHookCall call space trace =
      (trace, r.forward space (ReferenceUse.classify call)) := by
  cases hclassify : ReferenceUse.classify call with
  | direct outer => exact absurd hclassify (huse outer)
  | positional _ _ | property _ _ _ | ignored =>
      cases hfound : call.parent? with
      | none => simp only [bindHookCall, hfound, hclassify]
      | some declarator =>
          simp only [bindHookCall, hfound, hclassify, if_neg (hparent declarator hfound)]

/-- A hook call makes the translators it starts.  It is a usage as well if it is called at
once. -/
theorem bindHookCall_spec (r : Resolver) (call : Cursor) (space : Option Text) (trace : Trace) :
    (∀ t, t ∈ (r.bindHookCall call space trace).2 ↔ r.Starts call space t) ∧
      ((∃ outer, ReferenceUse.classify call = .direct outer ∧
          (r.bindHookCall call space trace).1 = trace.recordCall r.config space outer) ∨
        ((∀ outer, ReferenceUse.classify call ≠ .direct outer) ∧
          (r.bindHookCall call space trace).1 = trace)) := by
  by_cases hdeclarator : ∃ declarator, call.parent? = some declarator ∧
      declarator.kind = .variableDeclarator
  · -- the value of a declaration is no use of its own
    obtain ⟨declarator, hparent, hkind⟩ := hdeclarator
    have hclassify := classify_of_declarator hparent hkind
    refine ⟨fun t => ?_, Or.inr ⟨by simp [hclassify], ?_⟩⟩
    · rw [starts_iff_of_declarator hparent hkind]
      simp only [bindHookCall, hparent, if_pos hkind]
      split
      · rename_i name hname
        split
        · rename_i hboth
          simp only [Bool.and_eq_true, decide_eq_true_eq] at hboth
          simp [hname, hboth]
        · rename_i hboth
          simp only [Bool.and_eq_true, decide_eq_true_eq, not_and] at hboth
          simp only [List.not_mem_nil, false_iff, not_exists, not_and]
          rintro other hother hvalue hplain
          obtain rfl := Option.some.inj (hname.symm.trans hother)
          exact absurd hplain (hboth hvalue)
      · rename_i hname
        simp [hname]
    · simp only [bindHookCall, hparent, if_pos hkind]
      split
      · split <;> rfl
      · rfl
  · have hother : ∀ declarator, call.parent? = some declarator →
        declarator.kind ≠ .variableDeclarator := fun declarator hparent hkind =>
      hdeclarator ⟨declarator, hparent, hkind⟩
    by_cases hdirect : ∃ outer, ReferenceUse.classify call = .direct outer
    · obtain ⟨outer, huse⟩ := hdirect
      rw [bindHookCall_of_direct hother huse]
      refine ⟨fun t => ?_, Or.inl ⟨outer, huse, rfl⟩⟩
      rw [starts_iff_mem_forward hother, huse]
      simp [forward]
    · have hnone : ∀ outer, ReferenceUse.classify call ≠ .direct outer := fun outer huse =>
        hdirect ⟨outer, huse⟩
      rw [bindHookCall_of_not_direct hother hnone]
      exact ⟨fun t => (starts_iff_mem_forward hother).symm, Or.inr ⟨hnone, rfl⟩⟩

/-! ## The changes that resolving makes -/

/-- One change of a trace. -/
inductive Step (r : Resolver) : Trace → Trace → Prop
  | visit {t : Translator} (h : r.Reaches t) (trace : Trace) : Step r trace (trace.visit t)
  | scan {call : Cursor} (h : r.HookCall call) (trace : Trace) : Step r trace (trace.scan call)
  | call {space : Option Text} {call : Cursor} (h : r.Called space call) (trace : Trace) :
      Step r trace (trace.recordCall r.config space call)
  | dynamicHook {call argument : Cursor} (h : r.HookCall call)
      (hspace : hookSpace call = .error argument) (trace : Trace) :
      Step r trace (trace.recordHook ⟨argument.span, none, .nonLiteralNamespace, r.config.name⟩)

/-- A sequence of changes. -/
def Run (r : Resolver) : Trace → Trace → Prop :=
  Relation.ReflTransGen r.Step

namespace Run

variable {before middle after : Trace}

theorem refl (trace : Trace) : r.Run trace trace :=
  Relation.ReflTransGen.refl

theorem trans (h : r.Run before middle) (h' : r.Run middle after) : r.Run before after :=
  Relation.ReflTransGen.trans h h'

theorem of_step (h : r.Step before after) : r.Run before after :=
  Relation.ReflTransGen.single h

/-- What every change preserves is preserved by all of them together. -/
theorem invariant {P : Trace → Prop} (hstep : ∀ before after, r.Step before after → P before →
    P after) (h : r.Run before after) (hbefore : P before) : P after := by
  induction h with
  | refl => exact hbefore
  | tail _ hlast ih => exact hstep _ _ hlast ih

theorem foldl {α : Type} {f : Trace → α → Trace} {items : List α} (trace : Trace)
    (hf : ∀ item ∈ items, ∀ trace, r.Run trace (f trace item)) :
    r.Run trace (items.foldl f trace) := by
  induction items generalizing trace with
  | nil => exact refl trace
  | cons item rest ih =>
      have hfirst := hf item List.mem_cons_self trace
      have hrest := ih (f trace item) fun other hother => hf other (List.mem_cons_of_mem _ hother)
      exact hfirst.trans hrest

end Run

theorem run_expandOne (ht : r.Reaches t) (trace : Trace) : r.Run trace (r.expandOne t trace) := by
  rw [expandOne_eq_foldl]
  refine (Run.of_step (.visit ht trace)).trans (Run.foldl _ fun outer houter trace => ?_)
  obtain ⟨n, hn, hclassify⟩ := direct_mem_uses.mp (mem_directCalls.mp houter)
  exact .of_step (.call (.through ht hn hclassify) trace)

/-- Expanding a stack of translators of the project stays among them. -/
theorem run_expandAll {possible : List TranslatorKey} {stack : List Translator} {trace : Trace}
    (hstack : ∀ t ∈ stack, r.Reaches t) : r.Run trace (r.expandAll possible stack trace) := by
  fun_induction expandAll r possible stack trace with
  | case1 trace => exact .refl trace
  | case2 trace t rest _ ih => exact ih fun s hs => hstack s (List.mem_cons_of_mem t hs)
  | case3 trace t rest _ _ ih =>
      have ht := hstack t List.mem_cons_self
      refine (run_expandOne ht trace).trans (ih fun s hs => ?_)
      rcases List.mem_append.mp hs with hs | hs
      · obtain ⟨n, hn, hforward⟩ := mem_forwarded.mp hs
        exact .forward ht hn hforward
      · exact hstack s (List.mem_cons_of_mem t hs)
  | case4 trace t rest _ _ ih => exact ih fun s hs => hstack s (List.mem_cons_of_mem t hs)

theorem run_foldl_expand {found : List Translator} (hfound : ∀ t ∈ found, r.Reaches t)
    (trace : Trace) : r.Run trace (found.foldl (fun trace t => r.expand t trace) trace) := by
  refine Run.foldl trace fun t ht trace => ?_
  exact run_expandAll fun s hs => List.mem_singleton.mp hs ▸ hfound t ht

theorem run_scanHookCall (hcall : r.HookCall call) (trace : Trace) :
    r.Run trace (r.scanHookCall trace call).1 ∧
      ∀ t ∈ (r.scanHookCall trace call).2, r.Reaches t := by
  unfold scanHookCall
  split
  · exact ⟨.refl trace, by simp⟩
  · have hscan := Run.of_step (.scan hcall trace)
    dsimp only
    split
    · rename_i space hspace
      obtain ⟨hstarts, htrace⟩ := r.bindHookCall_spec call space (trace.scan call)
      refine ⟨?_, fun t ht => .start hcall hspace ((hstarts t).mp ht)⟩
      rcases htrace with ⟨outer, huse, heq⟩ | ⟨_, heq⟩
      · rw [heq]
        exact hscan.trans (.of_step (.call (.immediate hcall hspace huse) _))
      · rw [heq]
        exact hscan
    · rename_i argument hspace
      exact ⟨hscan.trans (.of_step (.dynamicHook hcall hspace _)), by simp⟩

theorem foldl_induction {σ α : Type} {f : σ → α → σ} {P : List α → σ → Prop} {items : List α}
    (hstep : ∀ item ∈ items, ∀ done state, P done state → P (done ++ [item]) (f state item))
    (done : List α) (state : σ) (h : P done state) : P (done ++ items) (items.foldl f state) := by
  induction items generalizing done state with
  | nil =>
      rw [List.append_nil]
      exact h
  | cons item rest ih =>
      have hfirst := hstep item List.mem_cons_self done state h
      have hrest := ih (fun other hother => hstep other (List.mem_cons_of_mem item hother))
        (done ++ [item]) (f state item) hfirst
      rw [List.append_assoc] at hrest
      exact hrest

/-- A relation between the hook calls of a file that are dealt with, the trace and the
translators found that each hook call preserves holds after all of them. -/
theorem hookTranslators_induction {P : List Cursor → Trace → List Translator → Prop}
    {unit : SourceUnit} {trace : Trace} (hstart : P [] trace [])
    (hstep : ∀ call ∈ r.hookCalls unit, ∀ done trace found, P done trace found →
      P (done ++ [call]) (r.scanHookCall trace call).1
        (found ++ (r.scanHookCall trace call).2)) :
    P (r.hookCalls unit) (r.hookTranslators unit trace).1 (r.hookTranslators unit trace).2 := by
  unfold hookTranslators
  refine foldl_induction
    (P := fun done (state : Trace × List Translator) => P done state.1 state.2)
    ?_ [] (trace, []) hstart
  intro call hcall done state h
  exact hstep call hcall done state.1 state.2 h

/-- Scanning a file finds translators of the project. -/
theorem run_hookTranslators {unit : SourceUnit} (hunit : unit ∈ r.project.units) (trace : Trace) :
    r.Run trace (r.hookTranslators unit trace).1 ∧
      ∀ t ∈ (r.hookTranslators unit trace).2, r.Reaches t := by
  refine hookTranslators_induction
    (P := fun _ scanned found => r.Run trace scanned ∧ ∀ t ∈ found, r.Reaches t)
    ⟨.refl trace, by simp⟩ ?_
  rintro call hcall _ scanned found ⟨hrun, hfound⟩
  obtain ⟨hnext, hmore⟩ := run_scanHookCall ((mem_hookCalls hunit).mp hcall).1 scanned
  refine ⟨hrun.trans hnext, fun t ht => ?_⟩
  rcases List.mem_append.mp ht with ht | ht
  · exact hfound t ht
  · exact hmore t ht

theorem run_resolveUnit {unit : SourceUnit} (hunit : unit ∈ r.project.units) (trace : Trace) :
    r.Run trace (r.resolveUnit trace unit) := by
  obtain ⟨hscan, hfound⟩ := run_hookTranslators hunit trace
  exact hscan.trans (run_foldl_expand hfound _)

/-- Resolving is a sequence of changes that are about translators, hook calls and usages of the
project. -/
theorem run_resolve (r : Resolver) (trace : Trace) : r.Run trace (r.resolve trace) :=
  Run.foldl trace fun _ hunit trace => run_resolveUnit hunit trace

end Resolver

end MessageKeys
