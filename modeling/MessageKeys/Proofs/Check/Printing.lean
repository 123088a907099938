import MessageKeys.Proofs.Check.Source

/-!
# What a check prints

A check breaks off at the first line that the standard stream cannot show.  Most of what it prints
is in ASCII, which every stream shows, or goes to the error stream, which shows everything.  Only
the messages directory, the locale, the unused keys and the names of documents are left
(`shown_findings_iff`, `isTaken_iff`).

So a run first prints its opening and all that it finds.  If one of these lines cannot be shown, it
leaves the files alone (`run_of_not_shown`); otherwise the rest of it is what it makes of the unused
keys (`run_of_shown`, `conclusion_of_some`).
-/

namespace MessageKeys

open OutputLine

theorem KeySet.isEmpty_iff {keys : KeySet} : keys.isEmpty = true ↔ ∀ key, key ∉ keys := by
  unfold KeySet.isEmpty
  rw [List.isEmpty_iff, List.eq_nil_iff_forall_not_mem]
  rfl

theorem KeySet.isEmpty_eq_false_iff {keys : KeySet} : keys.isEmpty = false ↔ ∃ key, key ∈ keys := by
  rw [← Bool.not_eq_true, isEmpty_iff, not_forall_not]

theorem KeySet.isEmpty_diff_iff {keys others : KeySet} :
    (keys.diff others).isEmpty = true ↔ ∀ key ∈ keys, key ∈ others := by
  rw [isEmpty_iff]
  simp only [mem_diff, not_and, not_not]

/-! ## Lines that can be shown -/

section

variable [Console]

/-- Whether the standard stream can show a text. -/
def Text.isShown (text : Text) : Bool :=
  text.all Console.shows

namespace Text

theorem isShown_append (first second : Text) :
    isShown (first ++ second) = (isShown first && isShown second) :=
  List.all_append

theorem isShown_of_ascii {text : Text} (h : (text.all fun c => decide (c.val < 128)) = true) :
    text.isShown = true := by
  refine List.all_eq_true.mpr fun c hc => Console.ascii c ?_
  exact of_decide_eq_true (List.all_eq_true.mp h c hc)

theorem isShown_ofString {s : String} (h : (s.toList.all fun c => decide (c.toNat < 128)) = true) :
    isShown (ofString s) = true := by
  refine isShown_of_ascii ?_
  rw [ofString, List.all_map]
  exact h

theorem isShown_decimal (n : ℕ) : isShown (Numeral.decimal n) = true := by
  refine isShown_of_ascii (List.all_eq_true.mpr fun c hc => decide_eq_true ?_)
  have hdigit := Numeral.all_isDigit_decimal n c hc
  simp only [CodePoint.isDigit, Bool.and_eq_true, decide_eq_true_eq] at hdigit
  omega

end Text

theorem OutputLine.isShown_out (text : Text) : (out text).isShown = text.isShown := rfl

theorem OutputLine.isShown_err (text : Text) : (err text).isShown = true := rfl

end

/-! ## Printing and closing -/

namespace CheckRun

/-- A run without what it told about. -/
def bare (run : CheckRun) : CheckRun :=
  { run with notices := [] }

theorem bare_tell (notices : List Notice) (run : CheckRun) : (tell notices run).bare = run.bare :=
  rfl

section

variable [Console] {files : FileSystem} {lines : List OutputLine}

theorem print_of_shown (h : ∀ line ∈ lines, line.isShown = true) (files : FileSystem)
    (rest : CheckRun) : print files lines rest = { rest with lines := lines ++ rest.lines } :=
  if_pos (List.all_eq_true.mpr h)

theorem print_of_not_shown (h : ¬∀ line ∈ lines, line.isShown = true) (files : FileSystem)
    (rest : CheckRun) : (print files lines rest).files = files ∧
      (print files lines rest).exit = .error .print := by
  unfold print
  rw [if_neg (mt List.all_eq_true.mp h)]
  exact ⟨rfl, rfl⟩

theorem print_append (files : FileSystem) (first second : List OutputLine) (rest : CheckRun) :
    print files (first ++ second) rest = print files first (print files second rest) := by
  unfold print
  rw [List.all_append]
  by_cases hfirst : first.all isShown = true
  · have htake : (first ++ second).takeWhile isShown = first ++ second.takeWhile isShown :=
      List.takeWhile_append_of_pos (List.all_eq_true.mp hfirst)
    by_cases hsecond : second.all isShown = true
    · simp [hfirst, hsecond]
    · simp [hfirst, hsecond, htake]
  · have hlength : (first.takeWhile isShown).length ≠ first.length := by
      intro heq
      have hself := (List.takeWhile_prefix isShown).eq_of_length heq
      rw [← hself] at hfirst
      exact hfirst List.all_takeWhile
    simp [hfirst, List.takeWhile_append, hlength]

theorem bare_print (files : FileSystem) (lines : List OutputLine) (rest : CheckRun) :
    (print files lines rest).bare = print files lines rest.bare := by
  unfold print
  split_ifs <;> rfl

theorem close_print (files : FileSystem) (lines more : List OutputLine) (code : ℕ)
    (rest : CheckRun) :
    (print files lines rest).close more code = print files lines (rest.close more code) := by
  obtain ⟨restFiles, restLines, restNotices, restExit⟩ := rest
  unfold print
  split_ifs with hshown
  · cases restExit with
    | error e => rfl
    | ok ended => simp [close]
  · rfl

/-- Lines that can be shown close a run that came to its end, and leave another as it is. -/
theorem close_of_shown (h : ∀ line ∈ lines, line.isShown = true) (code : ℕ) (run : CheckRun) :
    (run.close lines code).files = run.files ∧
      (run.close lines code).exit = run.exit.map (fun _ => code) ∧
      ∀ ended, run.exit = .ok ended → (run.close lines code).lines = run.lines ++ lines := by
  unfold close
  rw [print_of_shown h]
  cases hexit : run.exit with
  | error e => exact ⟨rfl, hexit, fun _ => nofun⟩
  | ok _ => exact ⟨rfl, rfl, fun _ _ => by rw [List.append_nil]⟩

end

end CheckRun

/-! ## What a run finds -/

namespace CheckConfig

section

variable [Json.Limits]

/-- The comparison that a run comes to, if it gets that far. -/
def outcome? (config : CheckConfig) (fs : FileSystem) : Option Reconciliation :=
  match config.definedKeys fs {}, config.usages fs with
  | .ok defined, .ok (trace, _) =>
      if defined.isEmpty then none else some (Reconciliation.compare defined trace.usedKeys)
  | _, _ => none

theorem outcome?_eq_some_iff {config : CheckConfig} {fs : FileSystem} {outcome : Reconciliation} :
    config.outcome? fs = some outcome ↔ ∃ defined trace notices,
      config.definedKeys fs {} = .ok defined ∧ defined.isEmpty = false ∧
        config.usages fs = .ok (trace, notices) ∧
        outcome = Reconciliation.compare defined trace.usedKeys := by
  unfold outcome?
  cases config.definedKeys fs {} with
  | error e => simp
  | ok defined =>
      cases config.usages fs with
      | error e => simp
      | ok found =>
          obtain ⟨trace, notices⟩ := found
          dsimp only
          cases hempty : defined.isEmpty with
          | true => simp [hempty]
          | false =>
              rw [if_neg Bool.false_ne_true]
              constructor
              · intro h
                exact ⟨defined, trace, notices, rfl, hempty, rfl, (Option.some.inj h).symm⟩
              · rintro ⟨_, _, _, hdefined, -, husages, rfl⟩
                obtain rfl := Except.ok.inj hdefined
                obtain ⟨rfl, -⟩ := Prod.mk.inj (Except.ok.inj husages)
                rfl

/-- A run comes to a comparison exactly if the source document can be loaded and defines keys, and
the source files can be searched. -/
theorem outcome?_eq_some_iff_source {config : CheckConfig} {fs : FileSystem}
    {outcome : Reconciliation} :
    config.outcome? fs = some outcome ↔ ∃ document trace notices, config.SourceHolds fs document ∧
      (∃ key, key ∈ document.keys) ∧ config.usages fs = .ok (trace, notices) ∧
      outcome = Reconciliation.compare document.keys trace.usedKeys := by
  rw [outcome?_eq_some_iff]
  constructor
  · rintro ⟨defined, trace, notices, hdefined, hempty, husages, rfl⟩
    obtain ⟨document, hsource, rfl⟩ := definedKeys_eq_ok_iff.mp hdefined
    exact ⟨document, trace, notices, hsource, KeySet.isEmpty_eq_false_iff.mp hempty, husages,
      rfl⟩
  · rintro ⟨document, trace, notices, hsource, hkeys, husages, rfl⟩
    have hdefined := definedKeys_eq_ok_iff.mpr ⟨document, hsource, rfl⟩
    exact ⟨document.keys, trace, notices, hdefined, KeySet.isEmpty_eq_false_iff.mpr hkeys, husages,
      rfl⟩

end

/-- The lines on the unused keys. -/
def unusedReport (unused : KeySet) : List OutputLine :=
  if unused.isEmpty then [out "\n[OK] No unused messages found."]
  else CheckReport.unusedLines unused

/-- The lines on the used keys, the dynamic usages and the missing keys. -/
def usedReport (config : CheckConfig) (defined : KeySet) (trace : Trace) : List OutputLine :=
  [out (Text.ofString "Found " ++ Numeral.decimal trace.usedKeys.size
      ++ Text.ofString " unique used keys in code."),
    out "\n--- Analysis Report ---"]
    ++ CheckReport.dynamicLines trace.dynamicUsages
    ++ CheckReport.missingLines config (Reconciliation.compare defined trace.usedKeys).missing

section

variable [Json.Limits]

/-- All that a run finds: the defined and the used keys, the dynamic usages, and the missing and the
unused keys. -/
def findings (config : CheckConfig) (fs : FileSystem) : List OutputLine :=
  match config.definedKeys fs {} with
  | .error (.unusable failure) =>
      [CheckReport.definedLine config 0, err failure.diagnostic.message,
        CheckReport.emptyLine config]
  | .error _ => []
  | .ok defined =>
      CheckReport.definedLine config defined.size ::
        if defined.isEmpty then [CheckReport.emptyLine config]
        else match config.usages fs with
          | .error _ => []
          | .ok (trace, _) => config.usedReport defined trace ++
              unusedReport (Reconciliation.compare defined trace.usedKeys).unused

theorem findings_of_some {config : CheckConfig} {fs : FileSystem} {defined : KeySet} {trace : Trace}
    {notices : List Notice} (hdefined : config.definedKeys fs {} = .ok defined)
    (hempty : defined.isEmpty = false) (husages : config.usages fs = .ok (trace, notices)) :
    config.findings fs = CheckReport.definedLine config defined.size
      :: config.usedReport defined trace
        ++ unusedReport (Reconciliation.compare defined trace.usedKeys).unused := by
  unfold findings
  rw [hdefined, husages]
  dsimp only
  rw [hempty, if_neg Bool.false_ne_true]
  rfl

end

/-! ## What is left to be shown -/

section

variable [Console] {config : CheckConfig}

theorem shown_opening_iff : (∀ line ∈ CheckReport.opening config, line.isShown = true) ↔
    config.messagesDirectory.isShown = true ∧ config.sourceLocale.isShown = true := by
  have hmode : config.mode.name.isShown = true := by
    cases config.mode <;> exact Text.isShown_ofString (by decide)
  unfold CheckReport.opening
  simp (disch := decide) [isShown_out, Text.isShown_append, Text.isShown_ofString, hmode]

theorem isShown_definedLine (h : config.sourceLocale.isShown = true) (count : ℕ) :
    (CheckReport.definedLine config count).isShown = true := by
  unfold CheckReport.definedLine documentName Locale.documentName
  simp (disch := decide) [isShown_out, Text.isShown_append, Text.isShown_ofString,
    Text.isShown_decimal, h]

theorem shown_dynamicLines (usages : List DynamicUsage) :
    ∀ line ∈ CheckReport.dynamicLines usages, line.isShown = true := by
  unfold CheckReport.dynamicLines
  intro line hline
  split at hline
  · contradiction
  · dsimp only at hline
    split at hline <;>
      simp only [List.cons_append, List.mem_cons, List.mem_append, List.mem_map,
        List.not_mem_nil, or_false] at hline
    · rcases hline with rfl | (⟨usage, -, rfl⟩ | rfl) | rfl <;> rfl
    · rcases hline with rfl | ⟨usage, -, rfl⟩ | rfl <;> rfl

theorem shown_missingLines (missing : KeySet) :
    ∀ line ∈ CheckReport.missingLines config missing, line.isShown = true := by
  unfold CheckReport.missingLines
  intro line hline
  split at hline
  · rw [List.mem_singleton.mp hline]
    exact Text.isShown_ofString (by decide)
  · rcases List.mem_cons.mp hline with rfl | hline
    · rfl
    · obtain ⟨key, -, rfl⟩ := List.mem_map.mp hline
      rfl

theorem shown_usedReport (defined : KeySet) (trace : Trace) :
    ∀ line ∈ config.usedReport defined trace, line.isShown = true := by
  unfold usedReport
  refine List.forall_mem_append.mpr ⟨List.forall_mem_append.mpr ⟨?_, shown_dynamicLines _⟩,
    shown_missingLines _⟩
  refine List.forall_mem_cons.mpr ⟨?_, List.forall_mem_singleton.mpr ?_⟩
  · simp (disch := decide) [isShown_out, Text.isShown_append, Text.isShown_ofString,
      Text.isShown_decimal]
  · exact Text.isShown_ofString (by decide)

theorem shown_unusedReport_iff {unused : KeySet} :
    (∀ line ∈ unusedReport unused, line.isShown = true) ↔
      ∀ key ∈ unused, key.isShown = true := by
  unfold unusedReport
  split_ifs with hempty
  · refine iff_of_true ?_ fun key hkey => absurd hkey (KeySet.isEmpty_iff.mp hempty key)
    exact List.forall_mem_singleton.mpr (Text.isShown_ofString (by decide))
  · unfold CheckReport.unusedLines
    have hheading : (out (Text.ofString "\n[INFO] Found " ++ Numeral.decimal unused.size
        ++ Text.ofString " unused messages:")).isShown = true := by
      simp (disch := decide) [isShown_out, Text.isShown_append, Text.isShown_ofString,
        Text.isShown_decimal]
    have hitem : ∀ key : Text, (out (CheckReport.item key)).isShown = key.isShown := by
      intro key
      rw [isShown_out, CheckReport.item, Text.isShown_append, Text.isShown_ofString (by decide),
        Bool.true_and]
    rw [List.forall_mem_cons, and_iff_right hheading, List.forall_mem_map]
    simp only [hitem]
    exact Iff.rfl

variable [Json.Limits]

/-- The console can show the messages directory and the locale of a run and the keys that it finds
unused. -/
structure Shown (config : CheckConfig) (fs : FileSystem) : Prop where
  messagesDirectory : config.messagesDirectory.isShown = true
  sourceLocale : config.sourceLocale.isShown = true
  unused : ∀ outcome, config.outcome? fs = some outcome →
    ∀ key ∈ outcome.unused, key.isShown = true

theorem shown_findings_iff {fs : FileSystem} :
    (∀ line ∈ CheckReport.opening config ++ config.findings fs, line.isShown = true) ↔
      config.Shown fs := by
  rw [List.forall_mem_append, shown_opening_iff]
  constructor
  · rintro ⟨⟨hdirectory, hlocale⟩, hfindings⟩
    refine ⟨hdirectory, hlocale, fun outcome houtcome => ?_⟩
    obtain ⟨defined, trace, notices, hdefined, hempty, husages, rfl⟩ :=
      outcome?_eq_some_iff.mp houtcome
    rw [findings_of_some hdefined hempty husages, List.forall_mem_append] at hfindings
    exact shown_unusedReport_iff.mp hfindings.2
  · rintro ⟨hdirectory, hlocale, hunused⟩
    refine ⟨⟨hdirectory, hlocale⟩, ?_⟩
    have hline := isShown_definedLine hlocale
    unfold findings
    cases hdefined : config.definedKeys fs {} with
    | error e =>
        cases e with
        | unusable failure =>
            exact List.forall_mem_cons.mpr ⟨hline 0, List.forall_mem_cons.mpr
              ⟨rfl, List.forall_mem_singleton.mpr rfl⟩⟩
        | _ => exact nofun
    | ok defined =>
        refine List.forall_mem_cons.mpr ⟨hline _, ?_⟩
        split_ifs with hempty
        · exact List.forall_mem_singleton.mpr rfl
        · cases husages : config.usages fs with
          | error e => exact nofun
          | ok found =>
              obtain ⟨trace, notices⟩ := found
              refine List.forall_mem_append.mpr ⟨shown_usedReport defined trace, ?_⟩
              exact shown_unusedReport_iff.mpr (hunused _ (outcome?_eq_some_iff.mpr
                ⟨defined, trace, notices, hdefined, Bool.not_eq_true _ ▸ hempty, husages, rfl⟩))

end

theorem shown_closing [Console] (outcome : Reconciliation) :
    ∀ line ∈ CheckReport.closing outcome, line.isShown = true := by
  unfold CheckReport.closing
  split_ifs
  · exact List.forall_mem_singleton.mpr (Text.isShown_ofString (by decide))
  · exact List.forall_mem_singleton.mpr (Text.isShown_ofString (by decide))
  · exact nofun

/-! ## The rest of a run -/

section

variable [Console] [Json.Limits] [Locale.Catalogue] {config : CheckConfig} {fs : FileSystem}

/-- What a run does about unused keys after it has reported them. -/
def remedy (config : CheckConfig) (fs : FileSystem) (unused : KeySet) : CheckRun :=
  if unused.isEmpty then { files := fs, exit := .ok 0 }
  else
    match config.mode with
    | .check => { files := fs, lines := [CheckReport.hintLine], exit := .ok 0 }
    | .fix => config.fix fs unused

theorem settle_eq (config : CheckConfig) (fs : FileSystem) (unused : KeySet) :
    config.settle fs unused
      = CheckRun.print fs (unusedReport unused) (config.remedy fs unused) := by
  have hhint : ∀ line ∈ [CheckReport.hintLine], line.isShown = true :=
    List.forall_mem_singleton.mpr (Text.isShown_ofString (by decide))
  unfold settle unusedReport remedy
  split_ifs
  · rfl
  · cases config.mode with
    | check =>
        dsimp only
        rw [CheckRun.print_of_shown hhint]
        rfl
    | fix => rfl

/-- What a run does once it has printed all that it finds. -/
def conclusion (config : CheckConfig) (fs : FileSystem) : CheckRun :=
  match config.definedKeys fs {} with
  | .error (.unusable _) => { files := fs, exit := .ok 1 }
  | .error e => { files := fs, exit := .error (.load e) }
  | .ok defined =>
      if defined.isEmpty then { files := fs, exit := .ok 1 }
      else match config.usages fs with
        | .error e => { files := fs, exit := .error (.search e) }
        | .ok (trace, _) =>
            let outcome := Reconciliation.compare defined trace.usedKeys
            (config.remedy fs outcome.unused).close (CheckReport.closing outcome)
              (CheckReport.exitCode outcome)

/-- A run prints its opening and all that it finds, and then comes to its conclusion. -/
theorem bare_run (config : CheckConfig) (fs : FileSystem) : (config.run fs {}).bare =
    CheckRun.print fs (CheckReport.opening config ++ config.findings fs)
      (config.conclusion fs).bare := by
  unfold run runWith findings conclusion
  rw [CheckRun.bare_print, CheckRun.bare_tell, CheckRun.print_append]
  refine congrArg (CheckRun.print fs (CheckReport.opening config)) ?_
  cases config.definedKeys fs {} with
  | error e =>
      cases e with
      | unusable failure => exact CheckRun.bare_print ..
      | _ => rfl
  | ok defined =>
      dsimp only
      rw [CheckRun.bare_print]
      split_ifs
      · rw [CheckRun.bare_print, ← CheckRun.print_append]
        rfl
      · unfold compare
        cases config.usages fs with
        | error e => rfl
        | ok found =>
            obtain ⟨trace, notices⟩ := found
            dsimp only
            rw [settle_eq, CheckRun.close_print, ← CheckRun.print_append, CheckRun.bare_tell,
              CheckRun.bare_print, ← CheckRun.print_append]
            rfl

/-- If all that a run finds can be shown, what it prints after that and leaves is its conclusion. -/
theorem run_of_shown (h : config.Shown fs) :
    (config.run fs {}).files = (config.conclusion fs).files ∧
      (config.run fs {}).exit = (config.conclusion fs).exit ∧
      (config.run fs {}).lines = CheckReport.opening config ++ config.findings fs
        ++ (config.conclusion fs).lines := by
  have hbare := config.bare_run fs
  rw [CheckRun.print_of_shown (shown_findings_iff.mpr h)] at hbare
  exact ⟨congrArg (·.files) hbare, congrArg (·.exit) hbare, congrArg (·.lines) hbare⟩

/-- If not, it breaks off and leaves the files alone. -/
theorem run_of_not_shown (h : ¬config.Shown fs) :
    (config.run fs {}).files = fs ∧ (config.run fs {}).exit = .error .print := by
  have hbare := config.bare_run fs
  obtain ⟨hfiles, hexit⟩ := CheckRun.print_of_not_shown (mt shown_findings_iff.mp h) fs
    (config.conclusion fs).bare
  rw [← hbare] at hfiles hexit
  exact ⟨hfiles, hexit⟩

/-- The conclusion of a comparison is what is done about the unused keys. -/
theorem conclusion_of_some {outcome : Reconciliation} (h : config.outcome? fs = some outcome) :
    (config.conclusion fs).files = (config.remedy fs outcome.unused).files ∧
      (config.conclusion fs).exit
        = (config.remedy fs outcome.unused).exit.map (fun _ => CheckReport.exitCode outcome) ∧
      ∀ ended, (config.remedy fs outcome.unused).exit = .ok ended → (config.conclusion fs).lines
        = (config.remedy fs outcome.unused).lines ++ CheckReport.closing outcome := by
  obtain ⟨defined, trace, notices, hdefined, hempty, husages, rfl⟩ := outcome?_eq_some_iff.mp h
  unfold conclusion
  rw [hdefined, husages]
  dsimp only
  rw [hempty, if_neg Bool.false_ne_true]
  exact CheckRun.close_of_shown (shown_closing _) _ _

/-! ## Fixing -/

/-- Whether a run goes on after the outcome of a document. -/
def isTaken (outcome : PruneOutcome) : Bool :=
  (CheckReport.outcomeLines outcome).all isShown

omit [Json.Limits] [Locale.Catalogue] in
/-- A run goes on after the outcome of a document exactly if it can show the document's name. -/
theorem isTaken_iff {outcome : PruneOutcome} :
    isTaken outcome = true ↔ outcome.path.name.isShown = true := by
  unfold isTaken CheckReport.outcomeLines
  cases outcome.failure with
  | none =>
      simp (disch := decide) [isShown_out, Text.isShown_append, Text.isShown_ofString]
  | some failure =>
      simp (disch := decide) [isShown_out, isShown_err, Text.isShown_append, Text.isShown_ofString]

/-- A fix leaves the files as pruning does, and comes to its end only if pruning does and every
outcome is taken. -/
theorem fixAt_eq (fs : FileSystem) (root : AbsolutePath) (unused : KeySet) :
    let pruning := fs.pruneWhile isTaken (Path.ofAbsolute root) unused
    (fixAt fs root unused).files = pruning.files ∧
      ∀ code, (fixAt fs root unused).exit = .ok code →
        pruning.stopped = none ∧ pruning.outcomes.all isTaken = true := by
  intro pruning
  have hdone : ∀ line ∈ [out "\nDone."], line.isShown = true :=
    List.forall_mem_singleton.mpr (Text.isShown_ofString (by decide))
  have hreport : (pruning.outcomes.flatMap CheckReport.outcomeLines).all isShown
      = pruning.outcomes.all isTaken := List.all_flatMap
  unfold fixAt
  dsimp only
  rw [show fs.pruneWhile (fun outcome => (CheckReport.outcomeLines outcome).all isShown)
    (Path.ofAbsolute root) unused = pruning from rfl, hreport]
  split_ifs with htaken
  · cases hstopped : pruning.stopped with
    | some e => exact ⟨rfl, fun _ => nofun⟩
    | none =>
        obtain ⟨hfiles, -⟩ := CheckRun.close_of_shown hdone 0
          ⟨pruning.files, _, pruning.notices, .ok 0⟩
        exact ⟨hfiles, fun _ _ => ⟨rfl, htaken⟩⟩
  · exact ⟨rfl, fun _ => nofun⟩

/-- Where the path of the messages directory leads to a directory, a fix prunes it. -/
theorem fix_of_directory {root : AbsolutePath} (hroot : config.messagesRoot fs = .ok root)
    (hdirectory : fs.isDirectory (Path.ofAbsolute root) = .ok true) (unused : KeySet) :
    (config.fix fs unused).files = (fixAt fs root unused).files ∧
      (config.fix fs unused).exit = (fixAt fs root unused).exit := by
  have hfixing : ∀ line ∈ [out "\nFixing... removing unused keys from message files."],
      line.isShown = true := List.forall_mem_singleton.mpr (Text.isShown_ofString (by decide))
  unfold fix
  rw [CheckRun.print_of_shown hfixing, hroot]
  dsimp only
  rw [hdirectory]
  exact ⟨rfl, rfl⟩

/-- A fix changes nothing, or it prunes the messages directory. -/
theorem files_fix_cases (config : CheckConfig) (fs : FileSystem) (unused : KeySet) :
    (config.fix fs unused).files = fs ∨ ∃ root, config.messagesRoot fs = .ok root ∧
      (config.fix fs unused).files
        = (fs.pruneWhile isTaken (Path.ofAbsolute root) unused).files := by
  by_cases hdirectory : ∃ root, config.messagesRoot fs = .ok root ∧
      fs.isDirectory (Path.ofAbsolute root) = .ok true
  · obtain ⟨root, hroot, hdirectory⟩ := hdirectory
    refine Or.inr ⟨root, hroot, ?_⟩
    rw [(fix_of_directory hroot hdirectory unused).1, (fixAt_eq fs root unused).1]
  · refine Or.inl ?_
    unfold fix CheckRun.print
    split_ifs
    · dsimp only
      cases hroot : config.messagesRoot fs with
      | error fault => rfl
      | ok root =>
          dsimp only
          cases hanswer : fs.isDirectory (Path.ofAbsolute root) with
          | error e => rfl
          | ok answer =>
              cases answer with
              | false => rfl
              | true => exact absurd ⟨root, hroot, hanswer⟩ hdirectory
    · rfl

end

end CheckConfig

end MessageKeys
