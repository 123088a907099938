import MessageKeys.Proofs.Check.Printing
import MessageKeys.Proofs.Messages.Idempotence

/-!
# Checking and fixing

A run in check mode and a run in fix mode find the same, and only what comes after that differs: the
first says how to erase unused keys, the second erases them.  A run that finds nothing to compare
ends in the same way in both modes (`conclusion_of_none`).  Otherwise both end with the code of the
comparison, and the files are those that are left once something was done about the unused keys
(`remedy_cases`).

Whatever the links and the faults of the file system are, a run in fix mode writes no other files
than those that documents of the messages directory lead to (`changed_of_fix`).  A document that is
a link leads to a file elsewhere, and that is written then (`fixed_outside_directory`).
-/

namespace MessageKeys

open Syntax (Kind Field Node)

theorem isDocumentName_stored {name : Text} (h : isDocumentName name = true) :
    isDocumentName (PathName.stored name) = true := by
  rw [isDocumentName, List.isSuffixOf_iff_suffix] at h ⊢
  exact PathName.suffix_stored (by simp [Text.ofString, CodePoint.ofChar]) h

/-- A name stands for its own place or for that of its link. -/
theorem FileSystem.landing_cases (fs : FileSystem) (path : AbsolutePath) :
    fs.landing path = path ∨ (path, fs.landing path) ∈ fs.links := by
  unfold landing
  cases hlink : Assoc.get? path fs.links with
  | none => exact Or.inl rfl
  | some target => exact Or.inr (Assoc.mem_of_get? hlink)

namespace CheckConfig

/-- A configuration in another mode. -/
def inMode (config : CheckConfig) (mode : CheckMode) : CheckConfig :=
  { config with mode }

theorem WellFormed.inMode {config : CheckConfig} (h : config.WellFormed) (mode : CheckMode) :
    (config.inMode mode).WellFormed :=
  ⟨h.locale, h.directory⟩

theorem exitCode_compare_eq_zero_iff {defined used : KeySet} :
    CheckReport.exitCode (Reconciliation.compare defined used) = 0 ↔
      ∀ key ∈ used, key ∈ defined := by
  rw [← KeySet.isEmpty_diff_iff]
  unfold CheckReport.exitCode Reconciliation.hasErrors Reconciliation.compare
  cases (used.diff defined).isEmpty <;> simp

section

variable [Console] [Json.Limits] [Locale.Catalogue] {config : CheckConfig} {fs : FileSystem}

/-! ## The two ways of a run -/

omit [Locale.Catalogue] in
theorem Shown.inMode (h : config.Shown fs) (mode : CheckMode) : (config.inMode mode).Shown fs :=
  ⟨h.messagesDirectory, h.sourceLocale, h.unused⟩

/-- A run that compares nothing leaves the files alone and does not pass, in either mode. -/
theorem conclusion_of_none (h : config.outcome? fs = none) :
    ∃ exit, exit ≠ .ok 0 ∧
      ∀ mode, (config.inMode mode).conclusion fs = { files := fs, exit } := by
  unfold outcome? at h
  unfold conclusion
  cases hdefined : config.definedKeys fs {} with
  | error e =>
      have hmode : ∀ mode, (config.inMode mode).definedKeys fs {} = .error e := fun _ => hdefined
      by_cases hunusable : ∃ failure, e = .unusable failure
      · obtain ⟨failure, rfl⟩ := hunusable
        refine ⟨.ok 1, by simp, fun mode => ?_⟩
        rw [hmode mode]
      · refine ⟨.error (.load e), by simp, fun mode => ?_⟩
        rw [hmode mode]
        cases e with
        | unusable failure => exact absurd ⟨failure, rfl⟩ hunusable
        | _ => rfl
  | ok defined =>
      have hmode : ∀ mode, (config.inMode mode).definedKeys fs {} = .ok defined := fun _ => hdefined
      cases hempty : defined.isEmpty with
      | true =>
          refine ⟨.ok 1, by simp, fun mode => ?_⟩
          rw [hmode mode]
          exact if_pos hempty
      | false =>
          cases husages : config.usages fs with
          | ok found =>
              rw [hdefined, husages] at h
              dsimp only at h
              rw [hempty] at h
              contradiction
          | error e =>
              have hused : ∀ mode, (config.inMode mode).usages fs = .error e := fun _ => husages
              refine ⟨.error (.search e), by simp, fun mode => ?_⟩
              rw [hmode mode, hused mode]
              dsimp only
              rw [hempty, if_neg Bool.false_ne_true]

/-- The unused keys are left alone, unless there are any and the run is in fix mode. -/
theorem remedy_cases (config : CheckConfig) (fs : FileSystem) (unused : KeySet) :
    ((config.remedy fs unused).files = fs ∧ (config.remedy fs unused).exit = .ok 0) ∨
      config.mode = .fix ∧ unused.isEmpty = false ∧
        config.remedy fs unused = config.fix fs unused := by
  unfold remedy
  split_ifs with hempty
  · exact Or.inl ⟨rfl, rfl⟩
  · cases config.mode with
    | check => exact Or.inl ⟨rfl, rfl⟩
    | fix => exact Or.inr ⟨rfl, Bool.not_eq_true _ ▸ hempty, rfl⟩

/-- The lines after all that a run finds. -/
def afterword (config : CheckConfig) (fs : FileSystem) : List OutputLine :=
  match config.outcome? fs with
  | none => []
  | some outcome => (config.remedy fs outcome.unused).lines ++ CheckReport.closing outcome

/-- A run that comes to its end has shown all that it found. -/
theorem shown_of_exit {code : ℕ} (h : (config.run fs {}).exit = .ok code) : config.Shown fs := by
  by_contra hshown
  rw [(run_of_not_shown hshown).2] at h
  contradiction

/-- What a run in fix mode changes are the files that the names of documents in the messages
directory stand for. -/
theorem changed_of_fix {unused : KeySet} {changed : AbsolutePath}
    (h : FileSystem.entry? (config.fix fs unused).files changed ≠ fs.entry? changed) :
    ∃ root place given name f g, config.messagesRoot fs = .ok root ∧
      fs.locate (Path.ofAbsolute root) = .ok (place, .directory given) ∧
      isDocumentName name = true ∧
      (changed = place ++ [name] ∨ (place ++ [name], changed) ∈ fs.links) ∧
      fs.entry? changed = some (.file f) ∧
      FileSystem.entry? (config.fix fs unused).files changed = some (.file g) := by
  rcases config.files_fix_cases fs unused with hfiles | ⟨root, hroot, hfiles⟩
  · rw [hfiles] at h
    exact absurd rfl h
  · rw [hfiles] at h ⊢
    obtain ⟨place, given, name, f, g, hlocate, hname, rfl, hf, hg⟩ :=
      FileSystem.changed_of_pruneWhile h
    exact ⟨root, place, given, PathName.stored name, f, g, hroot, hlocate,
      isDocumentName_stored hname, fs.landing_cases _, hf, hg⟩

/-- Only keys that are defined and not used set files in motion. -/
theorem files_run_cases (config : CheckConfig) (fs : FileSystem) :
    (config.run fs {}).files = fs ∨ config.mode = .fix ∧ ∃ outcome,
      config.outcome? fs = some outcome ∧ outcome.unused.isEmpty = false ∧
        (config.run fs {}).files = (config.fix fs outcome.unused).files := by
  by_cases hshown : config.Shown fs
  · rw [(run_of_shown hshown).1]
    cases houtcome : config.outcome? fs with
    | none =>
        obtain ⟨exit, -, hconclusion⟩ := conclusion_of_none houtcome
        have hsame : config.conclusion fs = { files := fs, exit } := hconclusion config.mode
        rw [hsame]
        exact Or.inl rfl
    | some outcome =>
        rw [(conclusion_of_some houtcome).1]
        rcases config.remedy_cases fs outcome.unused with ⟨hfiles, -⟩ | ⟨hmode, hempty, hremedy⟩
        · exact Or.inl hfiles
        · rw [hremedy]
          exact Or.inr ⟨hmode, outcome, rfl, hempty, rfl⟩
  · exact Or.inl (run_of_not_shown hshown).1

/-! ## The code of a run -/

/-- In check mode a comparison leaves the files alone and gives its code. -/
theorem conclusion_check {outcome : Reconciliation} (h : config.outcome? fs = some outcome) :
    ((config.inMode .check).conclusion fs).exit = .ok (CheckReport.exitCode outcome) ∧
      ((config.inMode .check).conclusion fs).lines = (config.inMode .check).afterword fs := by
  have houtcome : (config.inMode .check).outcome? fs = some outcome := h
  obtain ⟨-, hexit, hlines⟩ := conclusion_of_some houtcome
  rcases (config.inMode .check).remedy_cases fs outcome.unused with ⟨-, hremedy⟩ | ⟨hmode, -⟩
  · unfold afterword
    rw [hexit, hlines 0 hremedy, hremedy, houtcome]
    exact ⟨rfl, rfl⟩
  · contradiction

/-- A run in check mode passes exactly if all that it finds can be shown and it comes to a
comparison with nothing missing. -/
theorem exit_check_eq_zero_iff : ((config.inMode .check).run fs {}).exit = .ok 0 ↔
    config.Shown fs ∧
      ∃ outcome, config.outcome? fs = some outcome ∧ CheckReport.exitCode outcome = 0 := by
  by_cases hshown : config.Shown fs
  · rw [(run_of_shown (hshown.inMode .check)).2.1, and_iff_right hshown]
    cases houtcome : config.outcome? fs with
    | none =>
        obtain ⟨exit, hexit, hconclusion⟩ := conclusion_of_none houtcome
        rw [hconclusion .check]
        simp [hexit]
    | some outcome =>
        rw [(conclusion_check houtcome).1]
        simp
  · refine iff_of_false (fun hexit => hshown ?_) fun h => hshown h.1
    exact (shown_of_exit hexit).inMode config.mode

/-- The two runs end with the same code, if the one in fix mode comes to its end. -/
theorem same_report {code : ℕ} (h : ((config.inMode .fix).run fs {}).exit = .ok code) :
    ((config.inMode .check).run fs {}).exit = .ok code ∧
      ((config.inMode .check).run fs {}).lines = CheckReport.opening (config.inMode .check)
        ++ config.findings fs ++ (config.inMode .check).afterword fs ∧
      ((config.inMode .fix).run fs {}).lines = CheckReport.opening (config.inMode .fix)
        ++ config.findings fs ++ (config.inMode .fix).afterword fs := by
  have hshown : (config.inMode .fix).Shown fs := shown_of_exit h
  obtain ⟨-, hfixExit, hfixLines⟩ := run_of_shown hshown
  obtain ⟨-, hcheckExit, hcheckLines⟩ := run_of_shown (hshown.inMode .check)
  have hsame : ((config.inMode .fix).inMode .check) = config.inMode .check := rfl
  rw [hsame] at hcheckExit hcheckLines
  rw [hfixExit] at h
  rw [hcheckExit, hcheckLines, hfixLines]
  have hfindings : ∀ mode, (config.inMode mode).findings fs = config.findings fs := fun _ => rfl
  rw [hfindings, hfindings]
  cases houtcome : config.outcome? fs with
  | none =>
      obtain ⟨exit, -, hconclusion⟩ := conclusion_of_none houtcome
      have hafterword : ∀ mode, (config.inMode mode).afterword fs = [] := by
        intro mode
        unfold afterword
        rw [show (config.inMode mode).outcome? fs = none from houtcome]
      rw [hconclusion .fix] at h
      rw [hconclusion, hconclusion, hafterword, hafterword]
      exact ⟨h, rfl, rfl⟩
  | some outcome =>
      have hfixOutcome : (config.inMode .fix).outcome? fs = some outcome := houtcome
      obtain ⟨-, hended, hlines⟩ := conclusion_of_some hfixOutcome
      obtain ⟨hcheckEnded, hafterword⟩ := conclusion_check houtcome
      rw [hended] at h
      obtain ⟨ended, hremedy, rfl⟩ := map_eq_ok_iff.mp h
      have hfixAfterword : (config.inMode .fix).afterword fs
          = ((config.inMode .fix).conclusion fs).lines := by
        rw [hlines ended hremedy]
        unfold afterword
        rw [hfixOutcome]
      rw [hcheckEnded, hafterword, hfixAfterword]
      exact ⟨rfl, rfl, rfl⟩

/-! ## Check mode against fix mode -/

/-- The runs of a check in its two modes agree, and change no more than they may. -/
structure ModesAgree (config : CheckConfig) (fs : FileSystem) (check fix : CheckRun) : Prop where
  /-- A run in check mode changes nothing. -/
  checkKeeps : check.files = fs
  /-- If the run in fix mode comes to its end, both end with the same code and report the same. -/
  sameReport : ∀ code, fix.exit = .ok code → check.exit = .ok code ∧
    check.lines = CheckReport.opening (config.inMode .check) ++ config.findings fs
      ++ (config.inMode .check).afterword fs ∧
    fix.lines = CheckReport.opening (config.inMode .fix) ++ config.findings fs
      ++ (config.inMode .fix).afterword fs
  /-- What changes in fix mode is a file, and stays one.  It has the name of a document and stands
  right in the messages directory, or such a name there is a link to it. -/
  fixKeeps : ∀ changed, fix.files.entry? changed ≠ fs.entry? changed →
    ∃ root place given name f g, config.messagesRoot fs = .ok root ∧
      fs.locate (Path.ofAbsolute root) = .ok (place, .directory given) ∧
      isDocumentName name = true ∧
      (changed = place ++ [name] ∨ (place ++ [name], changed) ∈ fs.links) ∧
      fs.entry? changed = some (.file f) ∧ fix.files.entry? changed = some (.file g)
  /-- Nothing changes unless the source document can be loaded and defines a key that is not
  used. -/
  fixNeedsUnused : fix.files ≠ fs → ∃ document trace notices key, config.SourceHolds fs document ∧
    config.usages fs = .ok (trace, notices) ∧ key ∈ document.keys ∧ key ∉ trace.usedKeys
  /-- The run in check mode ends with zero exactly if all that it finds can be shown, and the source
  document can be loaded and defines keys, among them the key of every usage that has one. -/
  passes : check.exit = .ok 0 ↔ config.Shown fs ∧ ∃ document trace notices,
    config.SourceHolds fs document ∧ (∃ key, key ∈ document.keys) ∧
    config.usages fs = .ok (trace, notices) ∧
    ∀ usage ∈ trace.usages, ∀ key, usage.key = some key → key ∈ document.keys

/-- Runs in check and in fix mode agree, and change no more than they may. -/
theorem check_agrees_with_fix (config : CheckConfig) (fs : FileSystem) :
    ModesAgree config fs ((config.inMode .check).run fs {}) ((config.inMode .fix).run fs {}) := by
  refine ⟨?_, fun code => same_report, fun changed hchanged => ?_, fun hfiles => ?_, ?_⟩
  · rcases (config.inMode .check).files_run_cases fs with hfiles | ⟨hmode, -⟩
    · exact hfiles
    · contradiction
  · rcases (config.inMode .fix).files_run_cases fs with hfiles | ⟨-, outcome, -, -, hfiles⟩
    · rw [hfiles] at hchanged
      exact absurd rfl hchanged
    · rw [hfiles] at hchanged ⊢
      exact changed_of_fix hchanged
  · rcases (config.inMode .fix).files_run_cases fs with hsame | ⟨-, outcome, houtcome, hempty, -⟩
    · exact absurd hsame hfiles
    · obtain ⟨document, trace, notices, hsource, -, husages, rfl⟩ :=
        outcome?_eq_some_iff_source.mp houtcome
      obtain ⟨key, hkey⟩ := KeySet.isEmpty_eq_false_iff.mp hempty
      exact ⟨document, trace, notices, key, hsource, husages, KeySet.mem_diff.mp hkey⟩
  · rw [exit_check_eq_zero_iff]
    refine and_congr_right fun _ => ?_
    constructor
    · rintro ⟨outcome, houtcome, hzero⟩
      obtain ⟨document, trace, notices, hsource, hkeys, husages, rfl⟩ :=
        outcome?_eq_some_iff_source.mp houtcome
      refine ⟨document, trace, notices, hsource, hkeys, husages, fun usage husage key hkey => ?_⟩
      exact exitCode_compare_eq_zero_iff.mp hzero key
        ((usages_used husages key).mpr ⟨usage, husage, hkey⟩)
    · rintro ⟨document, trace, notices, hsource, hkeys, husages, hall⟩
      refine ⟨_, outcome?_eq_some_iff_source.mpr
        ⟨document, trace, notices, hsource, hkeys, husages, rfl⟩, ?_⟩
      refine exitCode_compare_eq_zero_iff.mpr fun key hkey => ?_
      obtain ⟨usage, husage, hkey⟩ := (usages_used husages key).mp hkey
      exact hall usage husage key hkey

end

/-- A check of the English document in a directory at the root. -/
def rooted : CheckConfig :=
  ⟨"m", "en", .check, defaultPatterns, Path.ofAbsolute []⟩

theorem wellFormed_rooted : rooted.WellFormed :=
  ⟨by decide, nofun⟩

/-- The file `import{useTranslations}from"next-intl";useTranslations()("k");`. -/
def oneUsage : File :=
  let node (kind : Kind) (start stop : Nat) (field : Option Field) (children : List Node) : Node :=
    .mk ⟨kind, true, false, start, stop, ⟨0, start⟩, field⟩ children
  let quoted (start stop : Nat) (field : Option Field) := node .string start stop field
    [node .stringFragment (start + 1) (stop - 1) none []]
  { content :=
      "import{useTranslations}from\"next-intl\";useTranslations()(\"k\");".toUTF8.data.toList
    modified := 0
    tree := node .program 0 62 none
      [node .importStatement 0 39 none
        [node .importClause 6 23 none
          [node .namedImports 6 23 none
            [node .importSpecifier 7 22 none [node .identifier 7 22 (some .name) []]]],
          quoted 27 38 (some .source)],
        node (.other "expression_statement") 39 62 none
          [node .callExpression 39 61 none
            [node .callExpression 39 56 (some .function)
              [node .identifier 39 54 (some .function) [],
                node .arguments 54 56 (some .arguments) []],
              node .arguments 56 61 (some .arguments) [quoted 57 60 none]]]] }

/-- The content of a document with the keys `k` and `x`. -/
def twoKeys : Bytes :=
  [0x7b, 0x22, 0x6b, 0x22, 0x3a, 0x22, 0x61, 0x22, 0x2c, 0x22, 0x78, 0x22, 0x3a, 0x22, 0x62, 0x22,
    0x7d]

/-- A project with a document and no source files. -/
def unsourced : FileSystem where
  workingDirectory := []
  entries := [(["m"], .directory none), (["m", "en.json"], .file ⟨twoKeys, 0, default⟩)]

/-- The same project where a source file uses one of the two keys. -/
def halfUsed : FileSystem where
  workingDirectory := []
  entries := (["src"], .directory none) :: (["src", "a.ts"], .file oneUsage) :: unsourced.entries

theorem wellFormed_halfUsed : halfUsed.WellFormed := by
  apply FileSystem.wellFormed_of_scalars rfl rfl
  · change ([["src"], ["src", "a.ts"], ["m"], ["m", "en.json"]] : List AbsolutePath).Nodup
    decide
  · simp [halfUsed, unsourced, Assoc.names, Text.ofString, CodePoint.isSurrogate, CodePoint.ofChar,
      Utf8.encodePoint, FileSystem.nameLimit]

/-- A check whose messages directory is spelled by way of a directory that is not there. -/
def detoured : CheckConfig :=
  { rooted with messagesDirectory := "x/../m" }

/-- A project whose document is a link to a file beside the messages directory. -/
def linked : FileSystem where
  workingDirectory := []
  entries := [(["m"], .directory none), (["notes.txt"], .file ⟨twoKeys, 0, default⟩)]
  links := [(["m", "en.json"], ["notes.txt"])]

section

open scoped Usual

/-- With one key used and one unused both modes pass. -/
theorem check_agrees_with_fix_halfUsed :
    ((rooted.inMode .fix).run halfUsed {}).exit = .ok 0 ∧
      ModesAgree rooted halfUsed ((rooted.inMode .check).run halfUsed {})
        ((rooted.inMode .fix).run halfUsed {}) :=
  ⟨by decide +kernel, check_agrees_with_fix rooted halfUsed⟩

/-- A fix writes files that do not stand in the messages directory.  If the directory is spelled by
way of one that is not there, the path leads nowhere, but the fix goes by the resolved path.  If a
document is a link, the fix writes the file behind it, whatever its name and wherever it stands. -/
theorem fixed_outside_directory :
    (let fix := (detoured.inMode .fix).run unsourced {}
     unsourced.isDirectory (Path.ofText detoured.messagesDirectory) = .ok false ∧
      fix.exit = .ok 0 ∧
      FileSystem.bytesAt? unsourced ["m", "en.json"] = some twoKeys ∧
      FileSystem.bytesAt? fix.files ["m", "en.json"] = some [0x7b, 0x7d, 0x0a]) ∧
    let fix := (rooted.inMode .fix).run linked {}
    rooted.messagesRoot linked = .ok ["m"] ∧ isDocumentName "notes.txt" = false ∧
      fix.exit = .ok 0 ∧
      FileSystem.bytesAt? linked ["notes.txt"] = some twoKeys ∧
      FileSystem.bytesAt? fix.files ["notes.txt"] = some [0x7b, 0x7d, 0x0a] :=
  ⟨⟨by decide +kernel, by decide +kernel, rfl, by decide +kernel⟩, rfl, by decide,
    by decide +kernel, rfl, by decide +kernel⟩

end

end CheckConfig

end MessageKeys
