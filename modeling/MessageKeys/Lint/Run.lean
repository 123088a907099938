import MessageKeys.Lint.Rule

/-!
# Linting files

Rules are run in the order of their configuration.  Findings take the severity of their
rule's level and are listed by place, then by code, then in the order of discovery.  The
first error in a configuration ends the run.
-/

namespace MessageKeys

open Syntax

variable [Json.Limits]

/-- Run the rules of some levels, one after the other. -/
def lintLevels (fs : FileSystem) (config : LintConfig) (trace : Trace) :
    List (Text × Json) → LintState → Except LintError (List Diagnostic) × LintState
  | [], state => (.ok [], state)
  | (name, level) :: rest, state =>
      match Rule.ofName? name with
      | none => (.error (.unknownRule name), state)
      | some rule =>
          match RuleLevel.ofJson name level with
          | .error e => (.error e, state)
          | .ok .off => lintLevels fs config trace rest state
          | .ok (.report severity) =>
              let options := (config.options.bind (Assoc.get? name)).getD .null
              match rule.check fs config options trace state with
              | (.error e, next) => (.error e, next)
              | (.ok found, next) =>
                  match lintLevels fs config trace rest next with
                  | (.error e, last) => (.error e, last)
                  | (.ok more, last) =>
                      (.ok (found.map (fun d => { d with severity }) ++ more), last)

/-- Whether a diagnostic may stand before another: by place, then by code.  Diagnostics
without a place come first. -/
def Diagnostic.precedes (a b : Diagnostic) : Bool :=
  let place (d : Diagnostic) : Int :=
    match d.span with
    | some span => span.start
    | none => -1
  decide (place a < place b) || (place a == place b && decide (a.code.number ≤ b.code.number))

/-- Lint a source file. -/
def lintUnit (fs : FileSystem) (config : LintConfig) (unit : SourceUnit) (state : LintState) :
    Except LintError (List Diagnostic) × LintState :=
  match lintLevels fs config (singleFileTrace unit) config.levels state with
  | (.ok found, next) => (.ok (found.mergeSort Diagnostic.precedes), next)
  | (.error e, next) => (.error e, next)

/-- Lint the source files at some paths.  A path that is given again replaces its
findings; a file that cannot be read is passed over. -/
def lintFiles (fs : FileSystem) (config : LintConfig) :
    List Path → List (Path × List Diagnostic) → LintState →
      Except LintError (List (Path × List Diagnostic)) × LintState
  | [], results, state => (.ok results, state)
  | path :: rest, results, state =>
      match fs.readSource path with
      | .error (.path fault) => (.error (.load (.path fault)), state)
      | .error (.os e) =>
          lintFiles fs config rest results
            { state with notices := state.notices ++ [fs.unreadable path e] }
      | .ok unit =>
          match lintUnit fs config unit state with
          | (.error e, next) => (.error e, next)
          | (.ok found, next) => lintFiles fs config rest (Assoc.insert path found results) next

end MessageKeys
