import MessageKeys.Lint.Level
import MessageKeys.Messages.Cache
import MessageKeys.Project.Sources
import MessageKeys.Usage.Resolution

/-!
# Lint rules

Each rule looks at one source file by itself.  One reports usages of keys that the source
document does not define, the other usages that cannot be analysed.
-/

namespace MessageKeys

open Syntax

/-- A lint rule. -/
inductive Rule where
  | noMissingKeys
  | noDynamicKeys
  deriving DecidableEq, Repr

namespace Rule

/-- All rules. -/
def all : List Rule := [noMissingKeys, noDynamicKeys]

/-- The name of a rule. -/
def name : Rule → Text
  | noMissingKeys => "no-missing-keys"
  | noDynamicKeys => "no-dynamic-keys"

/-- Whether a rule is about mistakes or about style. -/
def kind : Rule → Text
  | noMissingKeys => "problem"
  | noDynamicKeys => "suggestion"

/-- What a rule is for. -/
def description : Rule → Text
  | noMissingKeys => "disallow missing translation keys"
  | noDynamicKeys => "disallow dynamic translation keys"

/-- The recommended level of a rule. -/
def recommended : Rule → Text
  | noMissingKeys => "error"
  | noDynamicKeys => "warn"

/-- Whether a rule takes options. -/
def acceptsOptions : Rule → Bool
  | noMissingKeys => true
  | noDynamicKeys => false

/-- The rule with a name. -/
def ofName? (text : Text) : Option Rule :=
  all.find? fun rule => rule.name == text

/-- The levels of the recommended configuration. -/
def recommendedLevels : List (Text × Json) :=
  all.map fun rule => (rule.name, .str rule.recommended)

end Rule

/-- Where and how files are linted. -/
structure LintConfig where
  /-- The directory at which relative messages directories start. -/
  directory : Path
  levels : List (Text × Json) := Rule.recommendedLevels
  /-- The options of each rule. -/
  options : Option (List (Text × Json)) := none
  settings : Option (List (Text × Json)) := none

/-- The cache and the notices of a run. -/
structure LintState where
  cache : KeyCache := {}
  notices : List Notice := []

/-- The usages of a file seen by itself, where the hook need not be imported. -/
def singleFileTrace (unit : SourceUnit) : Trace :=
  (Resolver.mk (Project.ofUnits none [unit]) { requireImport := false }).resolve {}

namespace Rule

variable [Json.Limits]

/-- The keys that the source document defines; none if it cannot be used. -/
def definedKeys (fs : FileSystem) (config : LintConfig) (options : RuleOptions)
    (state : LintState) : Except LintError KeySet × LintState :=
  match Locale.documentPath (config.directory.join (Path.ofText options.messagesDirectory))
      options.sourceLocale with
  | .error fault => (.error (.options (.locale fault)), state)
  | .ok path =>
      match state.cache.get fs path with
      | (.ok keys, cache) => (.ok keys, { state with cache })
      | (.error (.unusable failure), cache) =>
          (.ok ∅,
            { cache, notices := state.notices ++ [.noDefinedKeys failure.diagnostic.plainBlock] })
      | (.error e, cache) => (.error (.load e), { state with cache })

/-- The usages with a literal key. -/
def literalUsages (trace : Trace) : List (Text × SourceSpan) :=
  trace.usages.filterMap fun usage => usage.key.map fun key => (key, usage.span)

/-- The diagnostics for usages of keys that are not defined. -/
def missingDiagnostics (defined : KeySet) (usages : List (Text × SourceSpan)) : List Diagnostic :=
  (usages.filter fun usage => decide (usage.1 ∉ defined)).map fun usage =>
    Diagnostic.missingKey usage.1 (some usage.2)

/-- The diagnostic for a dynamic usage.  A call without a key is left to the type
checker. -/
def dynamicDiagnostic? (usage : DynamicUsage) : Option Diagnostic :=
  match usage.reason with
  | .nonLiteralKey => some (Diagnostic.dynamicKey usage.space (some usage.span))
  | .nonLiteralNamespace => some (Diagnostic.dynamicNamespace (some usage.span))
  | .missingKey => none

/-- The findings about undefined keys.  The document is not looked at if there is nothing
to look up. -/
def checkMissing (fs : FileSystem) (config : LintConfig) (options : Option (List (Text × Json)))
    (trace : Trace) (state : LintState) : Except LintError (List Diagnostic) × LintState :=
  match RuleOptions.resolve options config.settings with
  | .error e => (.error (.options e), state)
  | .ok resolved =>
      let usages := literalUsages trace
      if usages.isEmpty then (.ok [], state)
      else match definedKeys fs config resolved state with
        | (.ok defined, next) => (.ok (missingDiagnostics defined usages), next)
        | (.error e, next) => (.error e, next)

/-- The findings of a rule with its options; a rule that takes none must not be given any. -/
def check (rule : Rule) (fs : FileSystem) (config : LintConfig) (options : Json) (trace : Trace)
    (state : LintState) : Except LintError (List Diagnostic) × LintState :=
  if !rule.acceptsOptions && options.isFilled then (.error (.noOptions rule.name), state)
  else match rule with
    | .noDynamicKeys => (.ok (trace.dynamicUsages.filterMap dynamicDiagnostic?), state)
    | .noMissingKeys =>
        match options with
        | .null => checkMissing fs config none trace state
        | .obj members => checkMissing fs config (some members) trace state
        | _ =>
            match RuleOptions.shared config.settings with
            | .error e => (.error (.options e), state)
            | .ok _ => (.error .optionsNotMapping, state)

end Rule

end MessageKeys
