import MessageKeys.Messages.Key
import MessageKeys.Syntax.Span

/-!
# Diagnostics

A diagnostic says what was found, where, and what to do about it.  Codes group by
thousands: missing keys, dynamic usages, unused keys, and documents that cannot be used.
-/

namespace MessageKeys

/-- The code of a finding. -/
inductive DiagnosticCode where
  | missingKey
  | dynamicKey
  | dynamicNamespace
  | unusedKey
  | messagesNotFound
  | messagesInvalid
  | messagesEmpty
  deriving DecidableEq, Repr

namespace DiagnosticCode

/-- All codes, in ascending order of their numbers. -/
def all : List DiagnosticCode :=
  [missingKey, dynamicKey, dynamicNamespace, unusedKey, messagesNotFound, messagesInvalid,
    messagesEmpty]

/-- The number of a code. -/
def number : DiagnosticCode → Nat
  | missingKey => 1001
  | dynamicKey => 2001
  | dynamicNamespace => 2002
  | unusedKey => 3001
  | messagesNotFound => 4001
  | messagesInvalid => 4002
  | messagesEmpty => 4003

/-- The name of a code. -/
def name : DiagnosticCode → Text
  | missingKey => "MISSING_KEY"
  | dynamicKey => "DYNAMIC_KEY"
  | dynamicNamespace => "DYNAMIC_NAMESPACE"
  | unusedKey => "UNUSED_KEY"
  | messagesNotFound => "MESSAGES_NOT_FOUND"
  | messagesInvalid => "MESSAGES_INVALID"
  | messagesEmpty => "MESSAGES_EMPTY"

/-- The code with a name. -/
def ofName? (text : Text) : Option DiagnosticCode :=
  all.find? fun code => code.name == text

end DiagnosticCode

/-- How serious a finding is.  Tools may bring levels of their own. -/
inductive Severity where
  | error
  | warning
  | info
  | custom (name : Text)
  deriving DecidableEq, Repr

namespace Severity

/-- The name of a severity. -/
def name : Severity → Text
  | error => "error"
  | warning => "warning"
  | info => "info"
  | custom name => name

/-- The severity with a name. -/
def ofName (text : Text) : Severity :=
  if text = Text.ofString "error" then error
  else if text = Text.ofString "warning" then warning
  else if text = Text.ofString "info" then info
  else custom text

end Severity

/-- A finding. -/
structure Diagnostic where
  code : DiagnosticCode
  message : Text
  span : Option SourceSpan := none
  hint : Option Text := none
  key : Option Text := none
  space : Option Text := none
  document : Option Text := none
  severity : Severity := .error
  deriving DecidableEq, Repr

namespace Diagnostic

/-- A used key that the source document does not define. -/
def missingKey (key : Text) (span : Option SourceSpan) : Diagnostic where
  code := .missingKey
  message := Text.ofString "Missing translation key: '" ++ key ++ Text.ofString "'"
  span
  hint := some (Text.ofString "Add '" ++ key ++ Text.ofString "' to the source locale document")
  key := some key

/-- A translator called with something other than a literal. -/
def dynamicKey (space : Option Text) (span : Option SourceSpan) : Diagnostic where
  code := .dynamicKey
  message := "Dynamic keys cannot be statically analyzed."
  span
  hint := some "Pass a string literal so the key can be checked"
  space := some (space.getD Key.defaultNamespace)
  severity := .warning

/-- The hook called with something other than a literal. -/
def dynamicNamespace (span : Option SourceSpan) : Diagnostic where
  code := .dynamicNamespace
  message := "Dynamic namespaces cannot be statically analyzed."
  span
  hint := some "Pass a string literal namespace so its keys can be checked"
  severity := .warning

/-- A defined key that nothing uses. -/
def unusedKey (key document : Text) : Diagnostic where
  code := .unusedKey
  message := Text.ofString "Unused translation key: '" ++ key ++ Text.ofString "'"
  hint := some "Run with --fix to remove these keys."
  key := some key
  document := some document
  severity := .info

/-- A document that does not exist. -/
def messagesNotFound (document : Text) : Diagnostic where
  code := .messagesNotFound
  message := Text.ofString "Messages file not found: " ++ document
  hint := some "Check --dir and --locale"
  document := some document

/-- A document that cannot be read. -/
def messagesInvalid (document reason : Text) : Diagnostic where
  code := .messagesInvalid
  message := Text.ofString "Failed to parse messages file " ++ document ++ Text.ofString ": "
    ++ reason
  hint := some "The document must be a JSON object"
  document := some document

/-- A document that defines no key. -/
def messagesEmpty (document : Text) : Diagnostic where
  code := .messagesEmpty
  message := Text.ofString "No keys found or file missing: " ++ document
  document := some document

end Diagnostic

end MessageKeys
