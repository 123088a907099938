import MessageKeys.Check.Config
import MessageKeys.Json.Basic

/-!
# Rule options

A rule finds its messages directory and source locale in its own options, then in the
shared settings, then in the defaults; empty texts count as absent.  Names and values are
checked before anything is looked up, settings before options.
-/

namespace MessageKeys

/-- Where an option was given. -/
inductive OptionOrigin where
  | setting
  | ruleOption
  deriving DecidableEq, Repr

namespace OptionOrigin

/-- The origin inside a sentence. -/
def name : OptionOrigin → Text
  | setting => "setting"
  | ruleOption => "rule option"

/-- The origin at the start of a sentence. -/
def title : OptionOrigin → Text
  | setting => "Setting"
  | ruleOption => "Rule option"

end OptionOrigin

/-- Where a rule looks for defined keys. -/
structure RuleOptions where
  messagesDirectory : Text
  sourceLocale : Text
  deriving DecidableEq, Repr

namespace RuleOptions

/-- Why options are refused. -/
inductive Invalid where
  | sectionNotMapping
  | unknownName (origin : OptionOrigin) (name : Text)
  | notText (origin : OptionOrigin) (name typeName : Text)
  | locale (fault : Locale.Invalid)
  deriving DecidableEq, Repr

/-- The settings section that rules read. -/
def sectionName : Text := "next-intl"

/-- The option for the messages directory. -/
def directoryName : Text := "messagesDir"

/-- The option for the source locale. -/
def localeName : Text := "sourceLocale"

/-- The wording of refused options. -/
def Invalid.message : Invalid → Text
  | .sectionNotMapping =>
      Text.ofString "Setting '" ++ sectionName ++ Text.ofString "' must be a mapping"
  | .unknownName origin name =>
      Text.ofString "Unknown " ++ origin.name ++ Text.ofString " '" ++ name ++ Text.ofString "'"
  | .notText origin name typeName =>
      origin.title ++ Text.ofString " '" ++ name ++ Text.ofString "' must be a string, got "
        ++ typeName
  | .locale fault => fault.message

/-- Check one option. -/
def checkOption (origin : OptionOrigin) (name : Text) (value : Json) :
    Except Invalid (Text × Text) :=
  if name = directoryName || name = localeName then
    match value with
    | .str text => .ok (name, text)
    | other => .error (.notText origin name other.typeName)
  else .error (.unknownName origin name)

/-- Check options in order. -/
def checkOptions (origin : OptionOrigin) (options : List (Text × Json)) :
    Except Invalid (List (Text × Text)) :=
  options.mapM fun (name, value) => checkOption origin name value

/-- The text given for an option, unless it is empty. -/
def given? (name : Text) (options : List (Text × Text)) : Option Text :=
  (Assoc.get? name options).filter fun text => !text.isEmpty

/-- The section of the settings that rules read. -/
def settingsSection (settings : Option (List (Text × Json))) :
    Except Invalid (List (Text × Json)) :=
  match settings.bind (Assoc.get? sectionName) with
  | none | some .null => .ok []
  | some (.obj members) => .ok members
  | some _ => .error .sectionNotMapping

/-- The options that the settings give, checked. -/
def shared (settings : Option (List (Text × Json))) : Except Invalid (List (Text × Text)) :=
  settingsSection settings >>= checkOptions .setting

/-- The options that a rule works with. -/
def resolve (options settings : Option (List (Text × Json))) : Except Invalid RuleOptions := do
  let common ← shared settings
  let own ← checkOptions .ruleOption (options.getD [])
  let find (name fallback : Text) : Text :=
    ((given? name own).or (given? name common)).getD fallback
  let sourceLocale := find localeName CheckConfig.defaultLocale
  match Locale.fault? sourceLocale with
  | some fault => .error (.locale fault)
  | none => .ok ⟨find directoryName CheckConfig.defaultDirectory, sourceLocale⟩

end RuleOptions

end MessageKeys
