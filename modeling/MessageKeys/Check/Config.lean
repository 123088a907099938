import MessageKeys.Files.FileSystem
import MessageKeys.Messages.Locale

/-!
# The configuration of a check

A check reads the document of the source locale in the messages directory and the source
files that some patterns match.  Relative paths start at the configured directory.
-/

namespace MessageKeys

/-- What to do about unused keys. -/
inductive CheckMode where
  | check
  | fix
  deriving DecidableEq, Repr

namespace CheckMode

/-- The name of a mode. -/
def name : CheckMode → Text
  | check => "check"
  | fix => "fix"

/-- The mode with a name. -/
def ofName? (text : Text) : Option CheckMode :=
  [check, fix].find? fun mode => mode.name == text

end CheckMode

/-- The configuration of a check. -/
structure CheckConfig where
  messagesDirectory : Text
  sourceLocale : Text
  mode : CheckMode
  patterns : List Text
  directory : Path
  deriving DecidableEq, Repr

namespace CheckConfig

/-- Why a configuration is refused. -/
inductive Invalid where
  | locale (fault : Locale.Invalid)
  | noPatterns
  | unknownMode (name : Text)
  deriving DecidableEq, Repr

/-- The wording of a refused configuration. -/
def Invalid.message : Invalid → Text
  | .locale fault => fault.message
  | .noPatterns => "At least one source pattern is required"
  | .unknownMode name => name.quoted ++ Text.ofString " is not a valid CheckMode"

/-- The messages directory if none is given. -/
def defaultDirectory : Text := "src/messages"

/-- The source locale if none is given. -/
def defaultLocale : Text := "en"

/-- The source patterns if none are given. -/
def defaultPatterns : List Text := ["src/**/*.ts", "src/**/*.tsx"]

/-- The configuration with given values.  The locale is checked first, then the patterns,
then the mode. -/
def make (messagesDirectory sourceLocale mode : Text) (patterns : List Text) (directory : Path) :
    Except Invalid CheckConfig :=
  match Locale.fault? sourceLocale with
  | some fault => .error (.locale fault)
  | none =>
      if patterns.isEmpty then .error .noPatterns
      else match CheckMode.ofName? mode with
        | some mode => .ok ⟨messagesDirectory, sourceLocale, mode, patterns, directory⟩
        | none => .error (.unknownMode mode)

/-- The absolute path of the messages directory. -/
def messagesRoot (config : CheckConfig) (fs : FileSystem) : Except PathFault AbsolutePath :=
  fs.resolve? (config.directory.join (Path.ofText config.messagesDirectory))

/-- The name of the source document. -/
def documentName (config : CheckConfig) : Text :=
  Locale.documentName config.sourceLocale

/-- The path of the source document. -/
def sourceDocument (config : CheckConfig) (fs : FileSystem) : Except PathFault Path :=
  (config.messagesRoot fs).map fun root =>
    (Path.ofAbsolute root).join (Path.ofText config.documentName)

end CheckConfig

end MessageKeys
