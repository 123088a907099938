import MessageKeys.Lint.Options
import MessageKeys.Messages.Store

/-!
# Levels of rules

A rule is off, or reports its findings with the severity of its level.  Levels come from a
configuration, so anything may stand there; the message about a level that is none shows
what was found.
-/

namespace MessageKeys

/-- A level that a rule is run at. -/
inductive RuleLevel where
  | off
  | report (severity : Severity)
  deriving DecidableEq, Repr

/-- Why linting stopped. -/
inductive LintError where
  | options (e : RuleOptions.Invalid)
  | unknownRule (name : Text)
  | invalidLevel (rule shown : Text)
  | compoundLevel
  | optionsNotMapping
  | noOptions (rule : Text)
  | load (e : LoadError)
  deriving DecidableEq, Repr

namespace LintError

/-- The wording of an error in the configuration of rules. -/
def configMessage? : LintError → Option Text
  | options e => some e.message
  | unknownRule name => some (Text.ofString "Unknown rule '" ++ name ++ Text.ofString "'")
  | invalidLevel rule shown =>
      some (Text.ofString "Invalid level " ++ shown ++ Text.ofString " for rule '" ++ rule
        ++ Text.ofString "' (expected error, warn or off)")
  | noOptions rule =>
      some (Text.ofString "Rule '" ++ rule ++ Text.ofString "' takes no options")
  | compoundLevel | optionsNotMapping | load _ => none

end LintError

/-- A value inside a message. -/
def Json.shown : Json → Text
  | .null => "None"
  | .bool b => if b then "True" else "False"
  | .int n => Numeral.signed n
  | .real x =>
      match x.shape with
      | .notANumber => "nan"
      | .infinite negative => if negative then "-inf" else "inf"
      | .finite _ _ _ => Json.realText x
  | .str s => s.quoted
  | value => Json.compact value

/-- Whether a value counts as given. -/
def Json.isFilled : Json → Bool
  | .null => false
  | .bool b => b
  | .int n => decide (n ≠ 0)
  | .real x =>
      match x.shape with
      | .finite _ mantissa _ => decide (mantissa ≠ 0)
      | _ => true
  | .str s => !s.isEmpty
  | .arr items => !items.isEmpty
  | .obj members => !members.isEmpty

/-- The level that a value stands for. -/
def RuleLevel.ofJson (rule : Text) : Json → Except LintError RuleLevel
  | .str level =>
      if level = Text.ofString "off" then .ok .off
      else if level = Text.ofString "error" then .ok (.report .error)
      else if level = Text.ofString "warn" then .ok (.report .warning)
      else .error (.invalidLevel rule level.quoted)
  | .arr _ | .obj _ => .error .compoundLevel
  | value => .error (.invalidLevel rule value.shown)

end MessageKeys
