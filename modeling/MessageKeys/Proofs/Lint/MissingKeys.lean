import MessageKeys.Lint.Rule
import MessageKeys.Messages.Reconciliation
import MessageKeys.Proofs.Files.Patterns
import MessageKeys.Proofs.Messages.Transparency
import MessageKeys.Proofs.Usage.Order

/-!
# Missing keys by rule and by comparison

The rule about missing keys walks over the usages of a file and looks each key up in a set that may
come from a cache and may stand for a document that cannot be used.  The checker compares two sets.
Both come to the same (`Rule.missing_findings_iff`), as long as no document was changed behind the
back of the cache; after a change that keeps the time of the document they differ
(`Rule.findings_behind_change`).

What a document defines is said by its bytes alone (`FileSystem.keysAt`).  The rule takes the same
keys as defined, however the cache was filled (`Rule.definedKeys_eq_ok_iff`), and the keys of the
usages are the used keys (`Resolver.mem_usedKeys_resolve`).  So the keys of the findings are those
that the comparison finds missing.
-/

namespace MessageKeys

open Syntax

/-! ## What a document defines -/

/-- The keys of a document with some bytes; none if they are not the text of a JSON object. -/
def Document.keysOfBytes [Json.Limits] (content : Bytes) : KeySet :=
  match (Utf8.decode? content).map fun text => Json.read (universalNewlines text) with
  | some (.ok (.obj members)) => Document.keys members
  | _ => ∅

theorem Document.keysOfBytes_eq [Json.Limits] (path : Text) (content : Bytes) :
    keysOfBytes content = ((decode path content).map keys).toOption.getD ∅ := by
  unfold keysOfBytes decode
  cases Utf8.decode? content with
  | none => rfl
  | some text =>
      unfold parse
      dsimp only [Option.map_some]
      cases Json.read (universalNewlines text) with
      | error e => cases e <;> rfl
      | ok value => cases value <;> rfl

namespace FileSystem

/-- The keys that are defined at a path; none if no file is there. -/
def keysAt [Json.Limits] (fs : FileSystem) (path : Path) : KeySet :=
  match fs.resolve? path with
  | .error _ => ∅
  | .ok place =>
      match fs.locate (Path.ofAbsolute place) with
      | .ok (_, .file f) => Document.keysOfBytes f.content
      | _ => ∅

/-- Loading the document at a path gives its keys, or the finding that it cannot be used. -/
def Assesses [Json.Limits] (fs : FileSystem) (path : Path) : Prop :=
  ∃ place, fs.resolve? path = .ok place ∧
    ∀ e, fs.readKeys (Path.ofAbsolute place) = .error e → ∃ failure, e = .unusable failure

variable {fs : FileSystem} {path : Path} {place : AbsolutePath}

theorem assesses_iff [Json.Limits] (hplace : fs.resolve? path = .ok place) :
    fs.Assesses path ↔
      ∀ e, fs.readKeys (Path.ofAbsolute place) = .error e → ∃ failure, e = .unusable failure := by
  unfold Assesses
  simp [hplace]

theorem keysAt_eq [Json.Limits] (hplace : fs.resolve? path = .ok place) :
    fs.keysAt path = (fs.readKeys (Path.ofAbsolute place)).toOption.getD ∅ := by
  unfold keysAt
  rw [hplace]
  dsimp only
  cases hlocate : fs.locate (Path.ofAbsolute place) with
  | error e =>
      unfold readKeys readMessages readFile
      rw [hlocate]
      cases e with
      | path fault => rfl
      | os e => cases e <;> rfl
  | ok found =>
      obtain ⟨spot, entry⟩ := found
      cases entry with
      | directory given =>
          rw [readKeys_of_directory hlocate]
          rfl
      | file f =>
          rw [readKeys_of_file hlocate]
          exact Document.keysOfBytes_eq _ f.content

end FileSystem

/-! ## What the rule takes as defined -/

namespace CacheRun

variable {run : CacheRun}

/-- Without changes of the files there is nothing to be inconsistent. -/
theorem consistent_of_past_nil (h : run.past = []) : run.Consistent := by
  intro first hfirst second hsecond place modified content other hcontent hother
  rw [h] at hfirst hsecond
  rw [List.mem_singleton.mp hfirst] at hcontent
  rw [List.mem_singleton.mp hsecond, hcontent] at hother
  exact (Prod.mk.inj (Option.some.inj hother)).2

/-- A look-up in a backed cache answers as loading by the resolved path does. -/
theorem kind_get_of_backed [Json.Limits] (hbacked : run.Backed) (hconsistent : run.Consistent)
    {path : Path} {place : AbsolutePath} (hplace : run.files.resolve? path = .ok place) :
    (run.cache.get run.files path).1.mapError LoadError.kind =
      (run.files.readKeys (Path.ofAbsolute place)).mapError LoadError.kind := by
  unfold KeyCache.get
  rw [hplace]
  dsimp only
  rw [getAt_of_backed hbacked hconsistent, KeyCache.kind_getAt_empty]

end CacheRun

/-- The document in which a rule looks for defined keys. -/
def LintConfig.sourceDocument (config : LintConfig) (options : RuleOptions) : Path :=
  (config.directory.join (Path.ofText options.messagesDirectory)).join
    (Path.ofText (Locale.documentName options.sourceLocale))

theorem RuleOptions.fault?_of_resolve {options settings : Option (List (Text × Json))}
    {resolved : RuleOptions} (h : resolve options settings = .ok resolved) :
    Locale.fault? resolved.sourceLocale = none := by
  unfold resolve at h
  obtain ⟨common, -, h⟩ := bind_eq_ok_iff.mp h
  obtain ⟨own, -, h⟩ := bind_eq_ok_iff.mp h
  dsimp only at h
  split at h
  · contradiction
  · rename_i hfault
    obtain rfl := Except.ok.inj h
    exact hfault

namespace Rule

/-- What the rule makes of the answer to a look-up: a document that cannot be used defines no
keys. -/
def degraded : Except LoadError KeySet → Except LintError KeySet
  | .ok keys => .ok keys
  | .error (.unusable _) => .ok ∅
  | .error e => .error (.load e)

/-- Nothing but the kind of an error matters to the rule. -/
theorem degraded_congr {answer other : Except LoadError KeySet}
    (h : answer.mapError LoadError.kind = other.mapError LoadError.kind) :
    degraded answer = degraded other := by
  cases answer with
  | ok keys => rw [mapError_eq_ok_iff.mp h.symm]
  | error e =>
      cases other with
      | ok keys => contradiction
      | error e' =>
          have hkind : e.kind = e'.kind := Except.error.inj h
          cases e with
          | unusable failure =>
              cases e' with
              | unusable other => rfl
              | _ => contradiction
          | _ =>
              cases e' with
              | unusable other => contradiction
              | _ => rw [Sum.inr.inj hkind]

theorem degraded_eq_ok_iff {answer : Except LoadError KeySet} {defined : KeySet} :
    degraded answer = .ok defined ↔
      (∀ e, answer = .error e → ∃ failure, e = .unusable failure) ∧
        defined = answer.toOption.getD ∅ := by
  cases answer with
  | ok keys => simp [degraded, Except.toOption, eq_comm]
  | error e => cases e <;> simp [degraded, Except.toOption, eq_comm]

theorem definedKeys_fst [Json.Limits] {fs : FileSystem} {config : LintConfig}
    {options : RuleOptions}
    (hlocale : Locale.fault? options.sourceLocale = none) (state : LintState) :
    (definedKeys fs config options state).1 =
      degraded (state.cache.get fs (config.sourceDocument options)).1 := by
  have hpath : Locale.documentPath
      (config.directory.join (Path.ofText options.messagesDirectory)) options.sourceLocale =
      .ok (config.sourceDocument options) := by
    unfold Locale.documentPath
    rw [hlocale]
    rfl
  unfold definedKeys
  rw [hpath]
  dsimp only
  rcases state.cache.get fs (config.sourceDocument options) with ⟨answer, cache⟩
  cases answer with
  | ok keys => rfl
  | error e => cases e <;> rfl

/-- The rule works with what the document defines, if loading the document tells. -/
theorem definedKeys_eq_ok_iff [Json.Limits] {run : CacheRun} (hbacked : run.Backed)
    (hconsistent : run.Consistent) (config : LintConfig) {options : RuleOptions}
    (hlocale : Locale.fault? options.sourceLocale = none) (notices : List Notice)
    (defined : KeySet) :
    (definedKeys run.files config options ⟨run.cache, notices⟩).1 = .ok defined ↔
      run.files.Assesses (config.sourceDocument options) ∧
        defined = run.files.keysAt (config.sourceDocument options) := by
  rw [definedKeys_fst hlocale]
  cases hplace : run.files.resolve? (config.sourceDocument options) with
  | error fault =>
      unfold KeyCache.get FileSystem.Assesses
      rw [hplace]
      simp [degraded]
  | ok place =>
      rw [FileSystem.keysAt_eq hplace, FileSystem.assesses_iff hplace,
        degraded_congr (CacheRun.kind_get_of_backed hbacked hconsistent hplace)]
      exact degraded_eq_ok_iff

/-! ## Findings and missing keys -/

/-- The findings are one for each literal usage of a key that is not defined. -/
theorem missingDiagnostics_literalUsages (defined : KeySet) (trace : Trace) :
    missingDiagnostics defined (literalUsages trace) =
      trace.usages.filterMap fun usage => usage.key.bind fun key =>
        if key ∈ defined then none else some (Diagnostic.missingKey key (some usage.span)) := by
  unfold missingDiagnostics literalUsages
  rw [List.filter_filterMap, List.map_filterMap]
  apply List.filterMap_congr
  intro usage _
  cases usage.key with
  | none => rfl
  | some key => by_cases hkey : key ∈ defined <;> simp [hkey]

/-- With nothing to look up the document is left alone. -/
theorem checkMissing_eq_ok_iff [Json.Limits] {run : CacheRun} (hbacked : run.Backed)
    (hconsistent : run.Consistent) {config : LintConfig} {options : Option (List (Text × Json))}
    {trace : Trace} {notices : List Notice} {found : List Diagnostic} :
    (checkMissing run.files config options trace ⟨run.cache, notices⟩).1 = .ok found ↔
      ∃ resolved, RuleOptions.resolve options config.settings = .ok resolved ∧
        (literalUsages trace = [] ∨ run.files.Assesses (config.sourceDocument resolved)) ∧
        found = missingDiagnostics (run.files.keysAt (config.sourceDocument resolved))
          (literalUsages trace) := by
  unfold checkMissing
  cases hresolved : RuleOptions.resolve options config.settings with
  | error e => simp
  | ok resolved =>
      have hanswer := definedKeys_eq_ok_iff hbacked hconsistent config
        (RuleOptions.fault?_of_resolve hresolved) notices
      dsimp only
      -- without literal usages both sides are the empty list, whatever the document is
      by_cases hnone : literalUsages trace = []
      · simp [hnone, missingDiagnostics, eq_comm]
      · rcases hdefined : definedKeys run.files config resolved ⟨run.cache, notices⟩ with
          ⟨answer, next⟩
        simp only [hdefined] at hanswer
        cases answer with
        | error e =>
            have hunassessed : ¬run.files.Assesses (config.sourceDocument resolved) :=
              fun h => absurd ((hanswer _).mpr ⟨h, rfl⟩) nofun
            simp [hnone, hunassessed]
        | ok defined =>
            obtain ⟨hassessed, rfl⟩ := (hanswer defined).mp rfl
            simp only [List.isEmpty_iff, hnone, hassessed, if_false, Except.ok.injEq, or_true,
              true_and, exists_eq_left']
            exact eq_comm

/-- The options that a value gives to a rule: those of a mapping, or none at all. -/
def ownOptions? : Json → Option (Option (List (Text × Json)))
  | .null => some none
  | .obj members => some (some members)
  | _ => none

theorem check_eq_ok_iff [Json.Limits] {fs : FileSystem} {config : LintConfig} {options : Json}
    {trace : Trace} {state : LintState} {found : List Diagnostic} :
    (check .noMissingKeys fs config options trace state).1 = .ok found ↔
      ∃ given, ownOptions? options = some given ∧
        (checkMissing fs config given trace state).1 = .ok found := by
  have htakes : noMissingKeys.acceptsOptions = true := rfl
  unfold check
  cases options with
  | null => simp [ownOptions?, htakes]
  | obj members => simp [ownOptions?, htakes]
  | _ => cases RuleOptions.shared config.settings <;> simp [ownOptions?, htakes]

end Rule

namespace Resolver

variable {r : Resolver}

theorem literalUsages_eq_nil_iff (hproject : r.project.Coherent) :
    Rule.literalUsages (r.resolve {}) = [] ↔ (r.resolve {}).usedKeys = ∅ := by
  unfold Rule.literalUsages
  rw [List.filterMap_eq_nil_iff]
  constructor
  · intro hnone
    apply KeySet.ext
    intro key
    rw [mem_usedKeys_resolve hproject]
    constructor
    · rintro ⟨usage, husage, hkey⟩
      have hmap := hnone usage husage
      rw [hkey] at hmap
      contradiction
    · intro hkey
      exact absurd hkey (KeySet.not_mem_empty key)
  · intro hempty usage husage
    cases hkey : usage.key with
    | none => rfl
    | some key =>
        have hused := (mem_usedKeys_resolve hproject key).mpr ⟨usage, husage, hkey⟩
        rw [hempty] at hused
        exact absurd hused (KeySet.not_mem_empty key)

/-- The keys of the findings are the used keys that are not defined. -/
theorem keys_missingDiagnostics (hproject : r.project.Coherent) (defined : KeySet) :
    KeySet.ofList ((Rule.missingDiagnostics defined
        (Rule.literalUsages (r.resolve {}))).filterMap Diagnostic.key) =
      (Reconciliation.compare defined (r.resolve {}).usedKeys).missing := by
  apply KeySet.ext
  intro key
  rw [Rule.missingDiagnostics_literalUsages, KeySet.mem_ofList, Reconciliation.compare,
    KeySet.mem_diff, mem_usedKeys_resolve hproject, List.filterMap_filterMap]
  constructor
  · intro hkey
    obtain ⟨usage, husage, hfound⟩ := List.mem_filterMap.mp hkey
    cases hliteral : usage.key with
    | none => simp [hliteral] at hfound
    | some literal =>
        by_cases hdefined : literal ∈ defined
        · simp [hliteral, hdefined] at hfound
        · have hkey : literal = key := by
            simpa [hliteral, hdefined, Diagnostic.missingKey] using hfound
          exact hkey ▸ ⟨⟨usage, husage, hliteral⟩, hdefined⟩
  · rintro ⟨⟨usage, husage, hliteral⟩, hdefined⟩
    apply List.mem_filterMap.mpr
    refine ⟨usage, husage, ?_⟩
    simp [hliteral, hdefined, Diagnostic.missingKey]

end Resolver

namespace Rule

/-- The rule about missing keys and the comparison of defined with used keys agree.  The rule
returns exactly if its options are accepted and, unless no key is used, loading the document tells
what it defines.  Its findings are then, in order, one for each literal usage of a key that is not
defined, and their keys are the missing ones. -/
theorem missing_findings_iff [Json.Limits] (fs : FileSystem) (events : List CacheEvent)
    (hconsistent : ((CacheRun.mk fs [] {}).after events).Consistent) (config : LintConfig)
    (options : Json) (unit : SourceUnit) (notices : List Notice) (found : List Diagnostic) :
    let run := (CacheRun.mk fs [] {}).after events
    let trace := Resolver.resolve ⟨Project.ofUnits none [unit], { requireImport := false }⟩ {}
    (check .noMissingKeys run.files config options trace ⟨run.cache, notices⟩).1 = .ok found ↔
      ∃ given resolved, ownOptions? options = some given ∧
        RuleOptions.resolve given config.settings = .ok resolved ∧
        (trace.usedKeys = ∅ ∨ run.files.Assesses (config.sourceDocument resolved)) ∧
        let defined := run.files.keysAt (config.sourceDocument resolved)
        (found = trace.usages.filterMap fun usage => usage.key.bind fun key =>
          if key ∈ defined then none else some (Diagnostic.missingKey key (some usage.span))) ∧
        KeySet.ofList (found.filterMap Diagnostic.key) =
          (Reconciliation.compare defined trace.usedKeys).missing := by
  intro run trace
  have hproject := Project.coherent_ofUnits none [unit]
  have hbacked : run.Backed := CacheRun.backed_after (CacheRun.backed_new fs) events
  have hliteral : literalUsages trace = [] ↔ trace.usedKeys = ∅ :=
    Resolver.literalUsages_eq_nil_iff hproject
  rw [check_eq_ok_iff]
  constructor
  · rintro ⟨given, hgiven, hchecked⟩
    obtain ⟨resolved, hresolved, hassessed, rfl⟩ :=
      (checkMissing_eq_ok_iff hbacked hconsistent).mp hchecked
    exact ⟨given, resolved, hgiven, hresolved, hassessed.imp_left hliteral.mp,
      missingDiagnostics_literalUsages _ _, Resolver.keys_missingDiagnostics hproject _⟩
  · rintro ⟨given, resolved, hgiven, hresolved, hassessed, hfound, -⟩
    refine ⟨given, hgiven, (checkMissing_eq_ok_iff hbacked hconsistent).mpr
      ⟨resolved, hresolved, hassessed.imp_left hliteral.mpr, ?_⟩⟩
    rw [hfound, missingDiagnostics_literalUsages]

/-- The file `useTranslations()("k");useTranslations()("m");`. -/
def twoUsages : SourceUnit :=
  let node (kind : Kind) (start stop : Nat) (field : Option Field) (children : List Node) : Node :=
    .mk ⟨kind, true, false, start, stop, ⟨0, start⟩, field⟩ children
  let usage (start : Nat) := node (.other "expression_statement") start (start + 23) none
    [node .callExpression start (start + 22) none
      [node .callExpression start (start + 17) (some .function)
        [node .identifier start (start + 15) (some .function) [],
          node .arguments (start + 15) (start + 17) (some .arguments) []],
        node .arguments (start + 17) (start + 22) (some .arguments)
          [node .string (start + 18) (start + 21) none
            [node .stringFragment (start + 19) (start + 20) none []]]]]
  { path := "a.ts"
    source := "useTranslations()(\"k\");useTranslations()(\"m\");".toUTF8.data
    root := node .program 0 46 none [usage 0, usage 23] }

/-- The content of a document with one key, a single letter. -/
def oneKey (letter : UInt8) : Bytes :=
  [0x7b, 0x22, letter, 0x22, 0x3a, 0x22, 0x61, 0x22, 0x7d]

section

open scoped Usual

/-- The cache knows the document, and of two used keys one is missing. -/
theorem missing_findings_iff_cached :
    let events := [CacheEvent.get (Path.ofText "en.json")]
    let run := (CacheRun.mk (CacheRun.oneDocument (oneKey 0x6b) 0) [] {}).after events
    let config : LintConfig := { directory := Path.ofAbsolute [] }
    let options := Json.obj [("messagesDir", .str ".")]
    let trace := Resolver.resolve ⟨Project.ofUnits none [twoUsages], { requireImport := false }⟩ {}
    let found := [Diagnostic.missingKey "m" (some ⟨41, 44, 1, 42, "a.ts"⟩)]
    (run.Consistent ∧ run.cache.size = 1) ∧
    (check .noMissingKeys run.files config options trace ⟨run.cache, []⟩).1 = .ok found ∧
      ∃ resolved, KeySet.ofList (found.filterMap Diagnostic.key) =
        (Reconciliation.compare (run.files.keysAt (config.sourceDocument resolved))
          trace.usedKeys).missing := by
  intro events run config options trace found
  have hconsistent : run.Consistent := CacheRun.consistent_of_past_nil rfl
  have hanswer : (check .noMissingKeys run.files config options trace ⟨run.cache, []⟩).1 =
      .ok found := by
    decide +kernel
  obtain ⟨_, resolved, -, -, -, -, hkeys⟩ :=
    (missing_findings_iff _ events hconsistent config options twoUsages [] found).mp hanswer
  exact ⟨⟨hconsistent, by decide +kernel⟩, hanswer, resolved, hkeys⟩

/-- The document with the key `k` is replaced by one with the key `m` and the same time, after the
cache has seen it.  The rule still reports `m`, although now `k` is the missing key. -/
theorem findings_behind_change :
    let events := [CacheEvent.get (Path.ofText "en.json"),
      .change (CacheRun.oneDocument (oneKey 0x6d) 0)]
    let run := (CacheRun.mk (CacheRun.oneDocument (oneKey 0x6b) 0) [] {}).after events
    let config : LintConfig := { directory := Path.ofAbsolute [] }
    let given : List (Text × Json) := [("messagesDir", .str ".")]
    let resolved : RuleOptions := ⟨".", "en"⟩
    let trace := Resolver.resolve ⟨Project.ofUnits none [twoUsages], { requireImport := false }⟩ {}
    let found := [Diagnostic.missingKey "m" (some ⟨41, 44, 1, 42, "a.ts"⟩)]
    RuleOptions.resolve (some given) config.settings = .ok resolved ∧
    (check .noMissingKeys run.files config (.obj given) trace ⟨run.cache, []⟩).1 = .ok found ∧
      found.filterMap Diagnostic.key = ["m"] ∧
      (Reconciliation.compare (run.files.keysAt (config.sourceDocument resolved))
        trace.usedKeys).missing.toList = ["k"] := by
  intro events run config given resolved trace found
  have hanswer : (check .noMissingKeys run.files config (.obj given) trace ⟨run.cache, []⟩).1 =
      .ok found := by
    decide +kernel
  have hmissing : (Reconciliation.compare (run.files.keysAt (config.sourceDocument resolved))
      trace.usedKeys).missing.toList = ["k"] := by
    decide +kernel
  exact ⟨by decide +kernel, hanswer, rfl, hmissing⟩

end

end Rule

end MessageKeys
