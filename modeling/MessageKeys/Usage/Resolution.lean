import MessageKeys.Usage.Callee
import MessageKeys.Usage.Reference
import MessageKeys.Usage.Trace

/-!
# Resolving usages

Translators start at calls of the hook.  Each translator is expanded once: its calls are
recorded, and where it is handed to a function the matching parameter is a translator too.
The expansion works through a stack, the translators of one expansion in source order.  It
ends because a translator sits at a node of the files at hand and each node is expanded at
most once per namespace.
-/

namespace MessageKeys

open Syntax

/-- A project together with the hook to look for. -/
structure Resolver where
  project : Project
  config : HookConfig

namespace Resolver

variable (r : Resolver)

/-- The translators that handing one on makes in the called function. -/
def forward (space : Option Text) (use : ReferenceUse) : List Translator :=
  let parameterAt (call : Cursor) (index : Nat) : Option Cursor :=
    (r.project.callee? call).bind fun function =>
      function.functionParameters[index]?.bind Cursor.parameterPattern?
  match use with
  | .positional call index =>
      match parameterAt call index with
      | some pattern => if pattern.kind = .identifier then [⟨pattern, space⟩] else []
      | none => []
  | .property call index name =>
      match parameterAt call index with
      | some pattern =>
          if pattern.kind = .objectPattern then
            (pattern.destructured name).map fun element => ⟨element, space⟩
          else []
      | none => []
  | _ => []

/-- The uses of a translator's name, in source order. -/
def uses (translator : Translator) : List ReferenceUse :=
  ((r.project.index translator.site.unit).references translator.site).map ReferenceUse.classify

/-- The translators that a translator is handed on to, in source order. -/
def forwarded (translator : Translator) : List Translator :=
  (r.uses translator).flatMap (r.forward translator.space)

/-- Record the calls through a translator. -/
def recordUses (translator : Translator) (trace : Trace) : Trace :=
  (r.uses translator).foldl
    (fun trace use =>
      match use with
      | .direct call => trace.recordCall r.config translator.space call
      | _ => trace)
    trace

/-- Deal with a translator: mark it and record the calls through it. -/
def expandOne (translator : Translator) (trace : Trace) : Trace :=
  r.recordUses translator (trace.visit translator)

theorem visited_recordUses (translator : Translator) (trace : Trace) :
    (r.recordUses translator trace).visited = trace.visited := by
  unfold recordUses
  induction r.uses translator generalizing trace with
  | nil => rfl
  | cons use rest ih =>
      rw [List.foldl_cons, ih]
      cases use <;> simp

@[simp] theorem visited_expandOne (translator : Translator) (trace : Trace) :
    (r.expandOne translator trace).visited = translator.key :: trace.visited := by
  rw [expandOne, visited_recordUses]
  rfl

/-- The number of possible translators that are not dealt with yet. -/
def pending (possible : List TranslatorKey) (trace : Trace) : Nat :=
  possible.countP fun key => decide (key ∉ trace.visited)

theorem pending_lt {possible : List TranslatorKey} {before after : Trace} {key : TranslatorKey}
    (hpossible : key ∈ possible) (hfresh : key ∉ before.visited)
    (hafter : after.visited = key :: before.visited) :
    pending possible after < pending possible before := by
  have hmono : ∀ keys : List TranslatorKey, pending keys after ≤ pending keys before := by
    intro keys
    apply List.countP_mono_left
    intro k _ hk
    simp only [hafter, List.mem_cons, not_or, decide_eq_true_eq] at hk ⊢
    exact hk.2
  induction possible with
  | nil => exact absurd hpossible List.not_mem_nil
  | cons first rest ih =>
      have hcons : ∀ trace : Trace, pending (first :: rest) trace =
          pending rest trace + if decide (first ∉ trace.visited) then 1 else 0 := fun trace =>
        List.countP_cons
      rw [hcons, hcons]
      by_cases heq : first = key
      · have hle := hmono rest
        simp only [heq, hafter, hfresh, List.mem_cons, true_or, not_true_eq_false, decide_false,
          not_false_eq_true, decide_true, Bool.false_eq_true, if_false, if_true]
        omega
      · have hrest : key ∈ rest :=
          (List.mem_cons.mp hpossible).resolve_left (Ne.symm heq)
        have hlt := ih hrest
        simp only [hafter, List.mem_cons, heq, false_or]
        omega

/-- Expand translators from a stack.  Only `possible` ones are expanded, each of them
once. -/
def expandAll (possible : List TranslatorKey) (stack : List Translator) (trace : Trace) : Trace :=
  match stack with
  | [] => trace
  | translator :: rest =>
      if translator.key ∈ trace.visited then expandAll possible rest trace
      else if translator.key ∈ possible then
        expandAll possible (r.forwarded translator ++ rest) (r.expandOne translator trace)
      else expandAll possible rest trace
termination_by (pending possible trace, stack.length)
decreasing_by
  · exact Prod.Lex.right _ (Nat.lt_succ_self _)
  · exact Prod.Lex.left _ _ (pending_lt ‹_› ‹_› (r.visited_expandOne translator trace))
  · exact Prod.Lex.right _ (Nat.lt_succ_self _)

/-- Where translators can sit in an expansion that starts at one: at its own node, and at
any node of its file and of the project's files. -/
def sites (translator : Translator) : List TranslatorKey :=
  translator.key ::
    ((translator.site.unit :: r.project.units).flatMap SourceUnit.nodeKeys).map fun key =>
      (key, translator.space)

/-- Record every usage that can be reached from a translator. -/
def expand (translator : Translator) (trace : Trace) : Trace :=
  r.expandAll (r.sites translator) [translator] trace

/-- The names by which a file can call the hook. -/
def hookNames (unit : SourceUnit) : KeySet :=
  let imported := unit.imports.filterMap fun binding =>
    if binding.module = r.config.module && binding.importedName = r.config.name then
      some binding.localName
    else none
  KeySet.ofList (if r.config.requireImport then imported else r.config.name :: imported)

/-- Whether a node calls the hook by one of its names. -/
def isHookCall (names : KeySet) (c : Cursor) : Bool :=
  decide (c.kind = .callExpression) &&
    match c.child? .function with
    | some callee => decide (callee.kind = .identifier) && decide (callee.text ∈ names)
    | none => false

/-- The namespace that a hook call asks for: a literal one, or an expression.  The default
namespace has no name. -/
def hookSpace (call : Cursor) : Except Cursor (Option Text) :=
  match call.argumentNodes with
  | [] => .ok none
  | argument :: _ =>
      match argument.stringValue? with
      | some literal =>
          if literal.isEmpty || literal = Key.defaultNamespace then .ok none
          else .ok (some literal)
      | none => .error argument

/-- The translators that a hook call makes.  A declared name is one; a call that is itself
handed on is forwarded like a reference, and one that is called at once is a usage. -/
def bindHookCall (call : Cursor) (space : Option Text) (trace : Trace) :
    Trace × List Translator :=
  let used : Trace × List Translator :=
    match ReferenceUse.classify call with
    | .direct outer => (trace.recordCall r.config space outer, [])
    | use => (trace, r.forward space use)
  match call.parent? with
  | some declarator =>
      if declarator.kind = .variableDeclarator then
        match declarator.child? .name with
        | some name =>
            if declarator.hasChild .value call && name.kind = .identifier then
              (trace, [⟨name, space⟩])
            else (trace, [])
        | none => (trace, [])
      else used
  | none => used

/-- Deal with a hook call, unless that was done before. -/
def scanHookCall (trace : Trace) (call : Cursor) : Trace × List Translator :=
  if call.key ∈ trace.hookCalls then (trace, [])
  else
    let scanned := trace.scan call
    match hookSpace call with
    | .ok space => r.bindHookCall call space scanned
    | .error argument =>
        (scanned.recordHook ⟨argument.span, none, .nonLiteralNamespace, r.config.name⟩, [])

/-- The calls of the hook in a file, in source order. -/
def hookCalls (unit : SourceUnit) : List Cursor :=
  unit.cursors.filter (isHookCall (r.hookNames unit))

/-- The translators that the hook calls of a file make, in source order. -/
def hookTranslators (unit : SourceUnit) (trace : Trace) : Trace × List Translator :=
  (r.hookCalls unit).foldl
    (fun (trace, found) call =>
      let (next, more) := r.scanHookCall trace call
      (next, found ++ more))
    (trace, [])

/-- Resolve the translators of one file. -/
def resolveUnit (trace : Trace) (unit : SourceUnit) : Trace :=
  let (scanned, translators) := r.hookTranslators unit trace
  translators.foldl (fun trace translator => r.expand translator trace) scanned

/-- Resolve all files of the project, continuing a trace. -/
def resolve (trace : Trace) : Trace :=
  r.project.units.foldl r.resolveUnit trace

end Resolver

end MessageKeys
