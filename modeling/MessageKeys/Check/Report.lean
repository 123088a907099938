import MessageKeys.Check.Config
import MessageKeys.Messages.Cache
import MessageKeys.Messages.Pruning
import MessageKeys.Messages.Reconciliation
import MessageKeys.Project.Sources
import MessageKeys.Usage.Resolution

/-!
# Checking a project

A check compares the keys that the source document defines with the keys that the source
files use, and reports what it finds line by line.  Missing keys fail the check; unused
keys and dynamic usages do not.  In fix mode the unused keys are erased from every
document, and each document is reported before the next is touched.

A line that the standard stream cannot show ends the check where it stands.
-/

namespace MessageKeys

/-- A line of output, on the standard stream or on the error stream. -/
inductive OutputLine where
  | out (text : Text)
  | err (text : Text)
  deriving DecidableEq, Repr

namespace OutputLine

/-- What a line adds to the standard stream. -/
def onOutput : OutputLine → Text
  | out text => text ++ [CodePoint.ofChar '\n']
  | err _ => []

/-- What a line adds to the error stream. -/
def onError : OutputLine → Text
  | out _ => []
  | err text => text ++ [CodePoint.ofChar '\n']

end OutputLine

/-- A standard stream, by the code points that it can show.  It shows all of ASCII.  The error
stream shows everything, if need be spelled out. -/
class Console where
  shows : CodePoint → Bool
  ascii : ∀ c : CodePoint, c.val < 128 → shows c = true

namespace Usual

/-- A stream in UTF-8 shows everything but lone surrogates. -/
scoped instance console : Console where
  shows c := !c.isSurrogate
  ascii c h := by simp [CodePoint.isSurrogate]; omega

end Usual

/-- Whether a line can be printed. -/
def OutputLine.isShown [Console] : OutputLine → Bool
  | out text => text.all Console.shows
  | err _ => true

open OutputLine

namespace CheckReport

/-- An item of a list. -/
def item (text : Text) : Text :=
  Text.ofString "  - " ++ text

/-- The lines before anything is loaded. -/
def opening (config : CheckConfig) : List OutputLine :=
  [out (Text.ofString "Running in " ++ config.mode.name ++ Text.ofString " mode..."),
    out (Text.ofString "Messages directory: " ++ config.messagesDirectory),
    out (Text.ofString "Source locale: " ++ config.sourceLocale)]

/-- The line on the defined keys. -/
def definedLine (config : CheckConfig) (count : Nat) : OutputLine :=
  out (Text.ofString "Found " ++ Numeral.decimal count ++ Text.ofString " defined keys in "
    ++ config.documentName)

/-- The line on a document without keys. -/
def emptyLine (config : CheckConfig) : OutputLine :=
  let document := (Path.ofText config.messagesDirectory).join (Path.ofText config.documentName)
  err (Diagnostic.messagesEmpty document.toText).message

/-- The number of dynamic usages that are listed. -/
def dynamicLimit : Nat := 10

/-- The lines on dynamic usages. -/
def dynamicLines (usages : List DynamicUsage) : List OutputLine :=
  if usages.isEmpty then []
  else
    let heading := err (Text.ofString "\n[WARN] Found " ++ Numeral.decimal usages.length
      ++ Text.ofString " dynamic usages which cannot be statically analyzed:")
    let listed := (usages.take dynamicLimit).map fun usage => err (item usage.describe)
    let more :=
      if dynamicLimit < usages.length then
        [err (Text.ofString "  ... and " ++ Numeral.decimal (usages.length - dynamicLimit)
          ++ Text.ofString " more.")]
      else []
    heading :: listed ++ more
      ++ [err "Be careful removing keys if they might be used dynamically."]

/-- The lines on missing keys. -/
def missingLines (config : CheckConfig) (missing : KeySet) : List OutputLine :=
  if missing.isEmpty then [out "\n[OK] No missing messages found."]
  else
    err (Text.ofString "\n[ERROR] Found " ++ Numeral.decimal missing.size
      ++ Text.ofString " missing messages (used in code but not in " ++ config.documentName
      ++ Text.ofString "):")
      :: missing.toList.map fun key => err (item key)

/-- The lines on unused keys. -/
def unusedLines (unused : KeySet) : List OutputLine :=
  out (Text.ofString "\n[INFO] Found " ++ Numeral.decimal unused.size
    ++ Text.ofString " unused messages:")
    :: unused.toList.map fun key => out (item key)

/-- The line that says how to erase unused keys. -/
def hintLine : OutputLine :=
  out "\nRun with --fix to remove these keys."

/-- The lines on a document that was pruned. -/
def outcomeLines (outcome : PruneOutcome) : List OutputLine :=
  let name := outcome.path.name
  let result := match outcome.failure with
    | none => out (Text.ofString "  Updated " ++ name)
    | some failure =>
        err (Text.ofString "  Error processing " ++ name ++ Text.ofString ": "
          ++ failure.diagnostic.plainBlock)
  [out (Text.ofString "Processing " ++ name ++ Text.ofString "..."), result]

/-- The last lines of a check. -/
def closing (outcome : Reconciliation) : List OutputLine :=
  if outcome.hasErrors then [out "\nCheck failed. Please address the errors above."]
  else if outcome.unused.isEmpty then [out "\nAll checks passed! Great job."]
  else []

/-- The exit code of a finished check. -/
def exitCode (outcome : Reconciliation) : Nat :=
  if outcome.hasErrors then 1 else 0

end CheckReport

/-- Why a check broke off. -/
inductive CheckError where
  | load (e : LoadError)
  | search (e : Wildcard.SearchError)
  | prune (e : PruneError)
  /-- A line cannot be shown. -/
  | print
  /-- A directory or a pattern is asked for, but not given. -/
  | noValue
  deriving DecidableEq, Repr

/-- A check so far: what it printed and told about, and the files it leaves. -/
structure CheckRun where
  files : FileSystem
  lines : List OutputLine := []
  notices : List Notice := []
  exit : Except CheckError Nat

namespace CheckRun

/-- Tell about something before the rest of a check. -/
def tell (notices : List Notice) (rest : CheckRun) : CheckRun :=
  { rest with notices := notices ++ rest.notices }

section

variable [Console]

/-- Print lines before the rest of a check, which is not reached if one of them cannot be
shown. -/
def print (files : FileSystem) (lines : List OutputLine) (rest : CheckRun) : CheckRun :=
  if lines.all OutputLine.isShown then { rest with lines := lines ++ rest.lines }
  else { files, lines := lines.takeWhile OutputLine.isShown, exit := .error .print }

/-- Print lines at the end of a check that did not break off. -/
def close (lines : List OutputLine) (code : Nat) (run : CheckRun) : CheckRun :=
  match run.exit with
  | .error _ => run
  | .ok _ =>
      let last := print run.files lines { files := run.files, exit := .ok code }
      { run with lines := run.lines ++ last.lines, exit := last.exit }

end

end CheckRun

/-- The keys that the source files of a check use, and the notices on files passed
over. -/
def CheckConfig.usages (config : CheckConfig) (fs : FileSystem) :
    Except Wildcard.SearchError (Trace × List Notice) := do
  let unusable (fault : PathFault) : Wildcard.SearchError := .file (.path fault)
  let places ← fs.discover config.patterns config.directory
  let root ← (fs.resolve? config.directory).mapError unusable
  let (project, notices) ← (Project.ofFiles fs (some (AbsolutePath.toText root))
    (places.map Path.ofAbsolute)).mapError unusable
  return ((Resolver.mk project {}).resolve {}, notices)

section

variable [Console] [Json.Limits] [Locale.Catalogue]

/-- Erase unused keys from the documents of a check, and report on each of them. -/
def CheckConfig.fixAt (fs : FileSystem) (root : AbsolutePath) (unused : KeySet) : CheckRun :=
  let pruning := fs.pruneWhile (fun outcome => (CheckReport.outcomeLines outcome).all isShown)
    (Path.ofAbsolute root) unused
  let report := pruning.outcomes.flatMap CheckReport.outcomeLines
  let run (exit : Except CheckError Nat) : CheckRun :=
    ⟨pruning.files, report.takeWhile isShown, pruning.notices, exit⟩
  if report.all isShown then
    match pruning.stopped with
    | some e => run (.error (.prune e))
    | none => (run (.ok 0)).close [out "\nDone."] 0
  else run (.error .print)

/-- Erase unused keys from the documents of a check, if their directory is there. -/
def CheckConfig.fix (config : CheckConfig) (fs : FileSystem) (unused : KeySet) : CheckRun :=
  CheckRun.print fs [out "\nFixing... removing unused keys from message files."]
    (match config.messagesRoot fs with
    | .error fault => { files := fs, exit := .error (.load (.path fault)) }
    | .ok root =>
        match fs.isDirectory (Path.ofAbsolute root) with
        | .error e => { files := fs, exit := .error (.prune (.os e)) }
        | .ok false => { files := fs, exit := .ok 0 }
        | .ok true => CheckConfig.fixAt fs root unused)

/-- Report on unused keys, and erase them in fix mode. -/
def CheckConfig.settle (config : CheckConfig) (fs : FileSystem) (unused : KeySet) : CheckRun :=
  if unused.isEmpty then
    CheckRun.print fs [out "\n[OK] No unused messages found."] { files := fs, exit := .ok 0 }
  else
    CheckRun.print fs (CheckReport.unusedLines unused)
      (match config.mode with
      | .check => CheckRun.print fs [CheckReport.hintLine] { files := fs, exit := .ok 0 }
      | .fix => config.fix fs unused)

/-- Compare used keys with the keys that are defined. -/
def CheckConfig.compare (config : CheckConfig) (fs : FileSystem) (defined : KeySet) : CheckRun :=
  match config.usages fs with
  | .error e => { files := fs, exit := .error (.search e) }
  | .ok (trace, notices) =>
      let outcome := Reconciliation.compare defined trace.usedKeys
      let before :=
        [out (Text.ofString "Found " ++ Numeral.decimal trace.usedKeys.size
            ++ Text.ofString " unique used keys in code."),
          out "\n--- Analysis Report ---"]
          ++ CheckReport.dynamicLines trace.dynamicUsages
          ++ CheckReport.missingLines config outcome.missing
      CheckRun.tell notices (CheckRun.print fs before ((config.settle fs outcome.unused).close
        (CheckReport.closing outcome) (CheckReport.exitCode outcome)))

/-- The keys that the source document of a check defines. -/
def CheckConfig.definedKeys (config : CheckConfig) (fs : FileSystem) (cache : KeyCache) :
    Except LoadError KeySet :=
  match config.sourceDocument fs with
  | .error fault => .error (.path fault)
  | .ok document => (cache.get fs document).1

/-- The notices on the source locale of a check. -/
def CheckConfig.localeNotices (config : CheckConfig) : List Notice :=
  Locale.notices "source locale" config.sourceLocale

/-- Run a check, where `compare` goes on once the defined keys are known.  A source document
that cannot be used or defines nothing fails it before. -/
def CheckConfig.runWith (config : CheckConfig) (fs : FileSystem) (cache : KeyCache)
    (compare : KeySet → CheckRun) : CheckRun :=
  CheckRun.print fs (CheckReport.opening config) (CheckRun.tell config.localeNotices
    (match config.definedKeys fs cache with
    | .error (.unusable failure) =>
        CheckRun.print fs [CheckReport.definedLine config 0, err failure.diagnostic.message,
          CheckReport.emptyLine config] { files := fs, exit := .ok 1 }
    | .error e => { files := fs, exit := .error (.load e) }
    | .ok defined =>
        CheckRun.print fs [CheckReport.definedLine config defined.size]
          (if defined.isEmpty then
            CheckRun.print fs [CheckReport.emptyLine config] { files := fs, exit := .ok 1 }
          else compare defined)))

/-- Run a check. -/
def CheckConfig.run (config : CheckConfig) (fs : FileSystem) (cache : KeyCache) : CheckRun :=
  config.runWith fs cache (config.compare fs)

end

end MessageKeys
