import MessageKeys.Check.Report
import MessageKeys.Command.Arguments
import MessageKeys.Lint.Run

/-!
# The commands

One command checks the whole project, the other lints single files.  A command line that
is not understood ends with code 2, a request for help with code 0, both before anything
is read.  An option whose value is missing ends a command where the value is needed, unless
the command can do without.
-/

namespace MessageKeys

open OutputLine

/-- A command. -/
inductive Command where
  | check
  | lint
  deriving DecidableEq, Repr

/-- Why a command broke off. -/
inductive CommandError where
  | check (e : CheckError)
  | lint (e : LintError)
  | format (e : Formatter.Failure)
  /-- The report cannot be shown. -/
  | print
  /-- The style of the report is asked for, but not given. -/
  | noStyle
  deriving DecidableEq, Repr

/-- How a command ended. -/
inductive CommandExit where
  /-- The command line was not carried out. -/
  | refused (reason : Arguments.Stop)
  | finished (code : Nat)
  | failed (e : CommandError)
  deriving DecidableEq, Repr

/-- A run of a command. -/
structure CommandRun where
  files : FileSystem
  lines : List OutputLine := []
  notices : List Notice := []
  exit : CommandExit

namespace Command

/-- The option for more output. -/
def verbose : CommandOption where
  names := ["--verbose", "-v"]

/-- The command line of a check. -/
def checkGrammar : CommandGrammar where
  options :=
    [{ names := ["--dir"], takesValue := true },
      { names := ["--locale"], takesValue := true },
      { names := ["--check"], conflict := some "--fix" },
      { names := ["--fix"], conflict := some "--check" },
      { names := ["--sources"], takesValue := true },
      verbose]
  takesOperands := false

/-- The command line of linting. -/
def lintGrammar : CommandGrammar where
  options :=
    [{ names := ["--messages-dir"], takesValue := true },
      { names := ["--source-locale"], takesValue := true },
      { names := ["--format"], takesValue := true,
        choices := some (ReportStyle.all.map ReportStyle.name) },
      { names := ["--disable"], takesValue := true, choices := some (Rule.all.map Rule.name) },
      { names := ["--color"] },
      verbose]
  takesOperands := true

/-- What stands for a value that is missing. -/
def noValue : Text := "[]"

/-- The configuration that a command line asks for, in the working directory.  A locale that
is missing is empty, and so refused. -/
def checkConfig (workingDirectory : AbsolutePath) (arguments : Arguments) :
    Except CheckConfig.Invalid CheckConfig :=
  let mode := if arguments.has "--fix" then CheckMode.fix else CheckMode.check
  let sources := (arguments.values "--sources").map (·.getD noValue)
  CheckConfig.make
    ((arguments.value? "--dir").getD
      (if arguments.lacksValue "--dir" then noValue else CheckConfig.defaultDirectory))
    ((arguments.value? "--locale").getD
      (if arguments.lacksValue "--locale" then [] else CheckConfig.defaultLocale)) mode.name
    (if sources.isEmpty then CheckConfig.defaultPatterns else sources)
    (Path.ofAbsolute workingDirectory)

section

variable [Console] [Json.Limits] [Locale.Catalogue]

/-- The check of a project.  Without a messages directory it ends after its first lines;
without one of the patterns it ends when those before have been searched for. -/
def checkRun (fs : FileSystem) (config : CheckConfig) (arguments : Arguments) : CheckRun :=
  let sources := arguments.values "--sources"
  if arguments.lacksValue "--dir" then
    CheckRun.print fs (CheckReport.opening config)
      (CheckRun.tell config.localeNotices { files := fs, exit := .error .noValue })
  else if sources.contains none then
    let before := (sources.takeWhile Option.isSome).filterMap id
    config.runWith fs {} fun _ =>
      { files := fs
        exit := match fs.discover before config.directory with
          | .ok _ => .error .noValue
          | .error e => .error (.search e) }
  else config.run fs {}

/-- Check the project. -/
def runCheck (fs : FileSystem) (words : List Text) : CommandRun :=
  match Arguments.read checkGrammar words with
  | .error reason => { files := fs, exit := .refused reason }
  | .ok arguments =>
      match checkConfig fs.workingDirectory arguments with
      | .error _ => { files := fs, exit := .refused .misuse }
      | .ok config =>
          let run := checkRun fs config arguments
          { files := run.files
            lines := run.lines
            notices := run.notices
            exit := match run.exit with
              | .ok code => .finished code
              | .error e => .failed (.check e) }

/-- The options of the rule on missing keys that a command line asks for. -/
def ruleOptions (arguments : Arguments) : List (Text × Json) :=
  let option (name value : Text) : List (Text × Json) :=
    if value.isEmpty then [] else [(name, .str value)]
  option RuleOptions.directoryName ((arguments.value? "--messages-dir").getD [])
    ++ option RuleOptions.localeName ((arguments.value? "--source-locale").getD [])

/-- The levels of the rules that a command line asks for. -/
def ruleLevels (arguments : Arguments) : List (Text × Json) :=
  let disabled := arguments.values "--disable"
  Rule.all.map fun rule =>
    (rule.name, .str (if disabled.contains (some rule.name) then "off" else rule.recommended))

/-- How linting is to be done in the working directory. -/
def lintConfig (workingDirectory : AbsolutePath) (arguments : Arguments) : LintConfig where
  directory := Path.ofAbsolute workingDirectory
  levels := ruleLevels arguments
  options := some [(Rule.noMissingKeys.name, .obj (ruleOptions arguments))]

/-- How findings are to be written. -/
def lintFormatter (arguments : Arguments) : Formatter :=
  { style := ((arguments.value? "--format").bind ReportStyle.ofName?).getD .block
    color := arguments.has "--color" }

/-- Lint files. -/
def runLint (fs : FileSystem) (words : List Text) : CommandRun :=
  match Arguments.read lintGrammar words with
  | .error reason => { files := fs, exit := .refused reason }
  | .ok arguments =>
      let config := lintConfig fs.workingDirectory arguments
      match lintFiles fs config (arguments.operands.map Path.ofText) [] {} with
      | (.error e, state) =>
          match e.configMessage? with
          | some message =>
              ⟨fs, [err (Text.ofString "[ERROR] " ++ message)], state.notices, .finished 2⟩
          | none => ⟨fs, [], state.notices, .failed (.lint e)⟩
      | (.ok results, state) =>
          let found := results.flatMap (·.2)
          let code := if found.any fun d => decide (d.severity = .error) then 1 else 0
          if arguments.lacksValue "--format" then ⟨fs, [], state.notices, .failed .noStyle⟩
          else if found.isEmpty then ⟨fs, [], state.notices, .finished code⟩
          else match (lintFormatter arguments).formatAll found with
            | .ok text =>
                if (out text).isShown then ⟨fs, [out text], state.notices, .finished code⟩
                else ⟨fs, [], state.notices, .failed .print⟩
            | .error e => ⟨fs, [], state.notices, .failed (.format e)⟩

/-- Run a command on the words of its command line. -/
def run (command : Command) (fs : FileSystem) (words : List Text) : CommandRun :=
  match command with
  | .check => runCheck fs words
  | .lint => runLint fs words

end

end Command

end MessageKeys
