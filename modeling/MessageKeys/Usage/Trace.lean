import MessageKeys.Messages.Key
import MessageKeys.Messages.KeySet
import MessageKeys.Syntax.Literal

/-!
# Usages of translators

A translator is a name that holds the result of the hook, with the namespace it was made
for.  A usage is a call through a translator; one without a literal key is dynamic.  The
trace of a run collects the usages in the order of discovery, together with the
translators and hook calls already dealt with.
-/

namespace MessageKeys

open Syntax

/-- A node that holds a translator, and the translator's namespace. -/
structure Translator where
  site : Cursor
  space : Option Text

/-- What identifies a translator: one parameter may receive translators of several
namespaces. -/
abbrev TranslatorKey := NodeKey × Option Text

/-- The identity of a translator. -/
def Translator.key (translator : Translator) : TranslatorKey :=
  (translator.site.key, translator.space)

/-- A call through a translator. -/
structure Usage where
  key : Option Text
  space : Option Text
  span : SourceSpan
  deriving DecidableEq, Repr

/-- A usage is dynamic if its key is not known. -/
def Usage.isDynamic (usage : Usage) : Bool :=
  usage.key.isNone

/-- Why a usage is dynamic. -/
inductive DynamicReason where
  | nonLiteralKey
  | missingKey
  | nonLiteralNamespace
  deriving DecidableEq, Repr

/-- A usage whose key or namespace is not a literal. -/
structure DynamicUsage where
  span : SourceSpan
  space : Option Text
  reason : DynamicReason
  hookName : Text
  deriving DecidableEq, Repr

/-- The line of a report for a dynamic usage. -/
def DynamicUsage.describe (usage : DynamicUsage) : Text :=
  match usage.reason with
  | .nonLiteralNamespace =>
      usage.span.describe ++ Text.ofString ": " ++ usage.hookName
        ++ Text.ofString " called with dynamic namespace"
  | _ =>
      usage.span.describe ++ Text.ofString ": t() called with dynamic key for namespace '"
        ++ usage.space.getD Key.defaultNamespace ++ Text.ofString "'"

/-- Which hook makes translators, and whether a file has to import it. -/
structure HookConfig where
  module : Text := "next-intl"
  name : Text := "useTranslations"
  requireImport : Bool := true
  deriving DecidableEq, Repr

/-- What a run has found so far. -/
structure Trace where
  visited : List TranslatorKey := []
  hookCalls : List NodeKey := []
  usedKeys : KeySet := ∅
  usages : List Usage := []
  dynamicUsages : List DynamicUsage := []

namespace Trace

/-- Note that a translator is dealt with. -/
def visit (trace : Trace) (translator : Translator) : Trace :=
  { trace with visited := translator.key :: trace.visited }

/-- Note that a hook call is dealt with. -/
def scan (trace : Trace) (call : Cursor) : Trace :=
  { trace with hookCalls := call.key :: trace.hookCalls }

/-- Record a usage with a literal key. -/
def recordKey (trace : Trace) (key : Text) (space : Option Text) (span : SourceSpan) : Trace :=
  { trace with
    usedKeys := trace.usedKeys.insert key
    usages := trace.usages ++ [⟨some key, space, span⟩] }

/-- Record a usage without a literal key. -/
def recordDynamic (trace : Trace) (usage : DynamicUsage) : Trace :=
  { trace with
    usages := trace.usages ++ [⟨none, usage.space, usage.span⟩]
    dynamicUsages := trace.dynamicUsages ++ [usage] }

/-- Record a hook call without a literal namespace. -/
def recordHook (trace : Trace) (usage : DynamicUsage) : Trace :=
  { trace with dynamicUsages := trace.dynamicUsages ++ [usage] }

/-- Record a call through a translator of a namespace. -/
def recordCall (trace : Trace) (config : HookConfig) (space : Option Text) (call : Cursor) :
    Trace :=
  match call.argumentNodes with
  | [] => trace.recordDynamic ⟨call.span, space, .missingKey, config.name⟩
  | argument :: _ =>
      match argument.stringValue? with
      | some literal => trace.recordKey (Key.qualify space literal) space argument.span
      | none => trace.recordDynamic ⟨argument.span, space, .nonLiteralKey, config.name⟩

@[simp] theorem visited_recordCall (trace : Trace) (config : HookConfig) (space : Option Text)
    (call : Cursor) : (trace.recordCall config space call).visited = trace.visited := by
  unfold recordCall
  split
  · rfl
  · split <;> rfl

@[simp] theorem hookCalls_recordCall (trace : Trace) (config : HookConfig) (space : Option Text)
    (call : Cursor) : (trace.recordCall config space call).hookCalls = trace.hookCalls := by
  unfold recordCall
  split
  · rfl
  · split <;> rfl

/-- The usages in one file. -/
def usagesIn (trace : Trace) (path : Text) : List Usage :=
  trace.usages.filter fun usage => decide (usage.span.path = path)

/-- The dynamic usages in one file. -/
def dynamicUsagesIn (trace : Trace) (path : Text) : List DynamicUsage :=
  trace.dynamicUsages.filter fun usage => decide (usage.span.path = path)

end Trace

end MessageKeys
