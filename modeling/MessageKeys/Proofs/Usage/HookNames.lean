import MessageKeys.Proofs.Usage.Callees

/-!
# Calls of the hook are found by its name

The calls of the hook in a file are those of the names under which the file imports it.  The scopes
around a call are not asked.  No call that means the hook is missed in this way, but a local name
that is spelled like the import is taken for it.  So what hook calls make respects shadowing exactly
if every call by the name of an import that makes anything means that import: the file is a program,
no inner scope declares the name, and the first declaration of the name at the top of the file
imports the hook (`Resolver.respectsShadowing_iff`).

What a call makes does not depend on the run that meets it, except that no call is scanned twice
(`Resolver.creates_iff`).
-/

namespace MessageKeys

open Syntax Cursor

namespace Resolver

/-- The import binds a name to the hook. -/
def ImportsHook (r : Resolver) (found : ImportBinding) : Prop :=
  found.module = r.config.module ∧ found.importedName = r.config.name

instance (r : Resolver) (found : ImportBinding) : Decidable (r.ImportsHook found) :=
  inferInstanceAs (Decidable (_ ∧ _))

/-- The callee is an identifier that means an import of the hook. -/
def CallsHook (r : Resolver) (unit : SourceUnit) (call : Cursor) : Prop :=
  ∃ callee, call.child? .function = some callee ∧ callee.kind = .identifier ∧
    ∃ found ∈ unit.imports, r.ImportsHook found ∧
      (r.project.index unit).declarationOf? callee = some found.node

/-- Scanning the call makes a translator, a usage or a record of a dynamic namespace. -/
def Creates (r : Resolver) (trace : Trace) (call : Cursor) : Prop :=
  (r.scanHookCall trace call).2 ≠ [] ∨ (r.scanHookCall trace call).1.usages ≠ trace.usages ∨
    (r.scanHookCall trace call).1.dynamicUsages ≠ trace.dynamicUsages

/-- Whatever is made from a call in a file is made from a call of the hook. -/
def RespectsShadowing (r : Resolver) : Prop :=
  ∀ unit ∈ r.project.units, ∀ trace, ∀ call ∈ r.hookCalls unit, r.Creates trace call →
    r.CallsHook unit call

/-- The call has something to make: its namespace is no literal, it is called at once, or it starts
a translator. -/
def Acts (r : Resolver) (call : Cursor) : Prop :=
  (∃ argument, hookSpace call = .error argument) ∨
    ∃ space, hookSpace call = .ok space ∧
      ((∃ outer, ReferenceUse.classify call = .direct outer) ∨ ∃ t, r.Starts call space t)

variable {r : Resolver} {unit : SourceUnit} {call callee : Cursor} {name : Text}
  {found : ImportBinding}

/-! ## What a call makes -/

theorem creates_iff {trace : Trace} :
    r.Creates trace call ↔ call.key ∉ trace.hookCalls ∧ r.Acts call := by
  unfold Creates Acts scanHookCall
  by_cases hscanned : call.key ∈ trace.hookCalls
  · simp [hscanned]
  · rw [if_neg hscanned]
    cases hspace : hookSpace call with
    | error argument => simp [hscanned, Trace.scan, Trace.recordHook]
    | ok space =>
        obtain ⟨hstarts, hrecorded⟩ := r.bindHookCall_spec call space (trace.scan call)
        have hmade : (r.bindHookCall call space (trace.scan call)).2 ≠ [] ↔
            ∃ t, r.Starts call space t := by
          rw [ne_eq, List.eq_nil_iff_forall_not_mem, not_forall]
          exact exists_congr fun t => not_not.trans (hstarts t)
        simp only [hmade, reduceCtorEq, exists_false, false_or, Except.ok.injEq, exists_eq_left',
          hscanned, not_false_eq_true, true_and]
        rcases hrecorded with ⟨outer, huse, hrecorded⟩ | ⟨hnone, hrecorded⟩
        · -- a call at once adds a usage
          rw [hrecorded, Trace.usages_recordCall]
          simp [Trace.scan, huse]
        · rw [hrecorded]
          simp [Trace.scan, hnone]

theorem respectsShadowing_iff_acts :
    r.RespectsShadowing ↔
      ∀ unit ∈ r.project.units, ∀ call ∈ r.hookCalls unit, r.Acts call → r.CallsHook unit call := by
  constructor
  · intro h unit hunit call hcall hacts
    exact h unit hunit {} call hcall (creates_iff.mpr ⟨List.not_mem_nil, hacts⟩)
  · intro h unit hunit trace call hcall hcreates
    exact h unit hunit call hcall (creates_iff.mp hcreates).2

/-! ## Names and meanings of the hook -/

theorem mem_hookNames (himport : r.config.requireImport = true) :
    name ∈ r.hookNames unit ↔
      ∃ found ∈ unit.imports, r.ImportsHook found ∧ found.localName = name := by
  simp [hookNames, himport, ImportsHook, and_assoc]

/-- The hook calls of a file are found by the local names of its imports alone. -/
theorem mem_hookCalls_iff (himport : r.config.requireImport = true) :
    call ∈ r.hookCalls unit ↔ call ∈ unit.cursors ∧ call.kind = .callExpression ∧
      ∃ callee, call.child? .function = some callee ∧ callee.kind = .identifier ∧
        ∃ found ∈ unit.imports, r.ImportsHook found ∧ found.localName = callee.text := by
  unfold hookCalls isHookCall
  rw [List.mem_filter, Bool.and_eq_true, decide_eq_true_eq]
  cases call.child? .function with
  | none => simp
  | some callee => simp [mem_hookNames himport]

/-- A call by name means an import exactly if the file is a program, no inner scope declares the
name, and the file means the import by it. -/
theorem declarationOf?_eq_import_iff (hunit : unit.Grammatical) (hcall : call ∈ unit.cursors)
    (hkind : call.kind = .callExpression) (hcallee : call.child? .function = some callee)
    (hidentifier : callee.kind = .identifier) (hfound : found ∈ unit.imports) :
    (ScopeIndex.ofUnit unit).declarationOf? callee = some found.node ↔
      unit.top.kind = .program ∧ unit.Unshadowed callee ∧
        (ScopeIndex.ofUnit unit).programBinding? callee.text = some found.node := by
  have hin : In unit callee := (In.of_mem_cursors hcall).child? hcallee
  have hreference : callee.kind.isReference = true := by rw [hidentifier]; rfl
  have hparent := parent?_of_child? hcallee
  have hpattern : call.kind.isPattern = false := by rw [hkind]; rfl
  have howner : call.kind.isOwner = false := by rw [hkind]; rfl
  -- a callee stands where nothing is declared, so it is looked up
  have hmem := hunit.mem_cursors hin hreference
  have hfree := hunit.isBinding_eq_false hmem hparent hpattern howner
  constructor
  · intro hdeclared
    have hshadow := ScopeIndex.unshadowed_of_declarationOf? hunit.toWellParsed hmem hfree
      (SourceUnit.mem_declarations_of_mem_imports hfound) rfl hdeclared
    rw [hunit.declarationOf?_eq hin hreference hparent hpattern howner hshadow] at hdeclared
    obtain ⟨hprogram, hbinding⟩ := Option.ite_none_right_eq_some.mp hdeclared
    exact ⟨hprogram, hshadow, hbinding⟩
  · rintro ⟨hprogram, hshadow, hbinding⟩
    rw [hunit.declarationOf?_eq hin hreference hparent hpattern howner hshadow, if_pos hprogram,
      hbinding]

/-- A call that means the hook is found by its name. -/
theorem CallsHook.mem_hookCalls (hproject : r.project.Coherent)
    (himport : r.config.requireImport = true) (hunit : unit.Grammatical)
    (hcall : call ∈ unit.cursors) (hkind : call.kind = .callExpression)
    (h : r.CallsHook unit call) : call ∈ r.hookCalls unit := by
  obtain ⟨callee, hcallee, hidentifier, found, hfound, hhook, hdeclared⟩ := h
  rw [hproject.index_eq] at hdeclared
  obtain ⟨_, _, hbinding⟩ :=
    (declarationOf?_eq_import_iff hunit hcall hkind hcallee hidentifier hfound).mp hdeclared
  obtain ⟨d, hd, _, hname, hnode⟩ := ScopeIndex.of_lookup? hbinding
  have htext : found.localName = callee.text := by
    rw [SourceUnit.localName_eq_text hfound, ← hnode, ← ScopeIndex.name_eq_text hd, hname]
  exact (mem_hookCalls_iff himport).mpr
    ⟨hcall, hkind, callee, hcallee, hidentifier, found, hfound, hhook, htext⟩

/-- With required imports, every call that means the hook is found.  What is made from the calls
that are found respects shadowing exactly if each call by the name of an imported hook that has
something to make means that import: the file is a program, no inner scope declares the name, and
the top of the file means an import of the hook by it. -/
theorem respectsShadowing_iff (root : Option Text) (units : List SourceUnit) (config : HookConfig)
    (himport : config.requireImport = true)
    (hunits : ∀ unit ∈ (Project.ofUnits root units).units, unit.Grammatical) :
    (∀ unit ∈ (Project.ofUnits root units).units, ∀ call ∈ unit.cursors,
      call.kind = .callExpression → CallsHook ⟨Project.ofUnits root units, config⟩ unit call →
      call ∈ hookCalls ⟨Project.ofUnits root units, config⟩ unit) ∧
    (RespectsShadowing ⟨Project.ofUnits root units, config⟩ ↔
      ∀ unit ∈ (Project.ofUnits root units).units, ∀ call ∈ unit.cursors,
        call.kind = .callExpression → Acts ⟨Project.ofUnits root units, config⟩ call →
        ∀ callee, call.child? .function = some callee → callee.kind = .identifier →
        (∃ found ∈ unit.imports, ImportsHook ⟨Project.ofUnits root units, config⟩ found ∧
          found.localName = callee.text) →
        unit.top.kind = .program ∧ unit.Unshadowed callee ∧ ∃ found ∈ unit.imports,
          ImportsHook ⟨Project.ofUnits root units, config⟩ found ∧
          (ScopeIndex.ofUnit unit).programBinding? callee.text = some found.node) := by
  have hproject := Project.coherent_ofUnits root units
  refine ⟨fun unit hunit call hcall hkind h =>
    h.mem_hookCalls hproject himport (hunits unit hunit) hcall hkind, ?_⟩
  rw [respectsShadowing_iff_acts]
  refine forall₂_congr fun unit hunit => ?_
  have hgrammatical := hunits unit hunit
  constructor
  · intro h call hcall hkind hacts callee hcallee hidentifier hnamed
    have hmem : call ∈ hookCalls ⟨Project.ofUnits root units, config⟩ unit :=
      (mem_hookCalls_iff himport).mpr ⟨hcall, hkind, callee, hcallee, hidentifier, hnamed⟩
    obtain ⟨other, hother, _, found, hfound, hhook, hdeclared⟩ := h call hmem hacts
    obtain rfl := Option.some.inj (hcallee.symm.trans hother)
    rw [hproject.index_eq] at hdeclared
    obtain ⟨hprogram, hshadow, hbinding⟩ := (declarationOf?_eq_import_iff hgrammatical hcall hkind
      hcallee hidentifier hfound).mp hdeclared
    exact ⟨hprogram, hshadow, found, hfound, hhook, hbinding⟩
  · intro h call hmem hacts
    obtain ⟨hcall, hkind, callee, hcallee, hidentifier, hnamed⟩ :=
      (mem_hookCalls_iff himport).mp hmem
    obtain ⟨hprogram, hshadow, found, hfound, hhook, hbinding⟩ :=
      h call hcall hkind hacts callee hcallee hidentifier hnamed
    refine ⟨callee, hcallee, hidentifier, found, hfound, hhook, ?_⟩
    rw [hproject.index_eq]
    exact (declarationOf?_eq_import_iff hgrammatical hcall hkind hcallee hidentifier hfound).mpr
      ⟨hprogram, hshadow, hbinding⟩

/-- In `importing` the hook is called by its imported name at the top, where nothing else has the
name. -/
theorem respectsShadowing_iff_importing :
    let r : Resolver := ⟨Project.ofUnits none [importing, exporting], {}⟩
    (∀ unit ∈ r.project.units, unit.Grammatical) ∧ r.RespectsShadowing ∧
      ∃ call ∈ r.hookCalls importing, r.Creates {} call ∧ r.CallsHook importing call := by
  intro r
  have hlist : r.project.units = [importing, exporting] := by decide +kernel
  have hunits : ∀ unit ∈ r.project.units, unit.Grammatical := by
    have himporting : importing.Grammatical :=
      ⟨⟨by decide, by decide, by decide, by decide, by decide⟩, by decide, by decide, by decide,
        by decide, by decide, by decide⟩
    have hexporting : exporting.Grammatical :=
      ⟨⟨by decide, by decide, by decide, by decide, by decide⟩, by decide, by decide, by decide,
        by decide, by decide, by decide⟩
    intro unit hunit
    rw [hlist, List.mem_pair] at hunit
    rcases hunit with rfl | rfl
    · exact himporting
    · exact hexporting
  have hrespects : r.RespectsShadowing := by
    refine (respectsShadowing_iff none [importing, exporting] {} rfl hunits).2.mpr ?_
    intro unit hunit call hcall _ _ callee hcallee _ hnamed
    have htop : ∀ unit ∈ [importing, exporting], ∀ call ∈ unit.cursors,
        ∀ callee ∈ call.child? .function,
        (∃ found ∈ unit.imports, r.ImportsHook found ∧ found.localName = callee.text) →
        unit.top.kind = .program ∧ unit.AtTop callee ∧
          ∃ found ∈ unit.imports, r.ImportsHook found ∧
            (ScopeIndex.ofUnit unit).programBinding? callee.text = some found.node := by
      decide +kernel
    obtain ⟨hprogram, hatTop, hmeans⟩ :=
      htop unit (hlist ▸ hunit) call hcall callee hcallee hnamed
    exact ⟨hprogram, hatTop.unshadowed, hmeans⟩
  obtain ⟨call, hcall, hmade⟩ : ∃ call ∈ r.hookCalls importing,
      ((r.scanHookCall {} call).2.map Translator.key).isEmpty = false := by
    decide +kernel
  have hcreates : r.Creates {} call := Or.inl fun hnil => by simp [hnil] at hmade
  have himporting : importing ∈ r.project.units := by simp [hlist]
  exact ⟨hunits, hrespects, call, hcall, hcreates,
    hrespects importing himporting {} call hcall hcreates⟩

/-- The file that imports the hook `useTranslations` and goes on with
`function f(useTranslations) { useTranslations('ns')('x'); }`. -/
def shadowingHook : SourceUnit :=
  let node (kind : Kind) (start stop : Nat) (field : Option Field) (children : List Node) : Node :=
    .mk ⟨kind, true, false, start, stop, ⟨0, start⟩, field⟩ children
  let name (start stop : Nat) (field : Option Field) := node .identifier start stop field []
  let quoted (start stop : Nat) (field : Option Field) := node .string start stop field
    [node .stringFragment (start + 1) (stop - 1) none []]
  { path := "/app/src/a.ts"
    source := ("import \x7b useTranslations \x7d from 'next-intl';\n" ++
      "function f(useTranslations) \x7b useTranslations('ns')('x'); \x7d\n").toUTF8.data
    root := node .program 0 105 none
      [node .importStatement 0 44 none
        [node .importClause 7 26 none
          [node .namedImports 7 26 none
            [node .importSpecifier 9 24 none [name 9 24 (some .name)]]],
          quoted 32 43 (some .source)],
        node .functionDeclaration 45 104 none
          [name 54 55 (some .name),
            node (.other "formal_parameters") 55 72 (some .parameters)
              [node .requiredParameter 56 71 none [name 56 71 (some .pattern)]],
            node .statementBlock 73 104 (some .body)
              [node (.other "expression_statement") 75 102 none
                [node .callExpression 75 101 none
                  [node .callExpression 75 96 (some .function)
                    [name 75 90 (some .function),
                      node .arguments 90 96 (some .arguments) [quoted 91 95 none]],
                    node .arguments 96 101 (some .arguments) [quoted 97 100 none]]]]]] }

/-- The parameter `useTranslations` is taken for the imported hook: its call makes the usage
`ns.x`. -/
theorem not_respectsShadowing :
    ¬ RespectsShadowing ⟨Project.ofUnits (some "/app") [shadowingHook], {}⟩ := by
  intro hrespects
  obtain ⟨call, hcall, husage, hmeans⟩ :
      ∃ call ∈ hookCalls ⟨Project.ofUnits (some "/app") [shadowingHook], {}⟩ shadowingHook,
        (scanHookCall ⟨Project.ofUnits (some "/app") [shadowingHook], {}⟩ {} call).1.usages.map
          Usage.key = [some (Text.ofString "ns.x")] ∧
        ∀ callee ∈ call.child? .function, ∀ found ∈ shadowingHook.imports,
          (Project.index (Project.ofUnits (some "/app") [shadowingHook])
            shadowingHook).declarationOf? callee ≠ some found.node := by
    decide +kernel
  obtain ⟨callee, hcallee, _, found, hfound, _, hdeclared⟩ := hrespects shadowingHook
    (by decide +kernel) {} call hcall (Or.inr (Or.inl fun hnone => by simp [hnone] at husage))
  exact hmeans callee hcallee found hfound hdeclared

end Resolver

end MessageKeys
