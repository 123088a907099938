import MessageKeys.Text.Quoted

/-!
# Notices

What a run tells about besides its findings: things it passed over or made do without.
-/

namespace MessageKeys

/-- Something a run tells about. -/
inductive Notice where
  | unknownLocale (context code : Text)
  | noDirectory (directory : Text)
  | unreadableSource (path reason : Text)
  | skippedDocument (path reason : Text)
  | unwrittenDocument (path reason : Text)
  | noDefinedKeys (reason : Text)
  deriving DecidableEq, Repr

/-- The level of a notice. -/
inductive NoticeLevel where
  | warning
  | error
  deriving DecidableEq, Repr

namespace Notice

/-- A document that is left out or not written is an error, everything else a warning. -/
def level : Notice → NoticeLevel
  | skippedDocument _ _ => .error
  | unwrittenDocument _ _ => .error
  | _ => .warning

/-- The wording of a notice. -/
def message : Notice → Text
  | unknownLocale context code =>
      Text.ofString "Unknown " ++ context ++ Text.ofString " " ++ code.quoted
        ++ Text.ofString ": not a CLDR locale"
  | noDirectory directory =>
      Text.ofString "Messages directory " ++ directory ++ Text.ofString " does not exist"
  | unreadableSource path reason =>
      Text.ofString "Skipping unreadable source " ++ path ++ Text.ofString ": " ++ reason
  | skippedDocument path reason =>
      Text.ofString "Skipping " ++ path ++ Text.ofString ": " ++ reason
  | unwrittenDocument path reason =>
      Text.ofString "Could not write " ++ path ++ Text.ofString ": " ++ reason
  | noDefinedKeys reason => Text.ofString "No defined keys available: " ++ reason

end Notice

end MessageKeys
