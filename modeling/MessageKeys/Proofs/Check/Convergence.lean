import MessageKeys.Proofs.Check.Modes
import MessageKeys.Proofs.Files.Patterns

/-!
# Checking after fixing

A fix that passed leaves a project in which the source files use the same keys (`usages_congr`), and
a source document without its unused keys, as far as its file can be written (`LeftInFile`).  So the
next check passes with nothing unused exactly if there was nothing to erase, or the document was
written, a key is used, and erasing took out the unused keys and no others (`check_after_fix`).

The last is a condition on the names in the document (`Document.Separates`): keys are erased by
their segments, and a name with a dot may give a key whose segments lead to another leaf, or
nowhere.  Names that are not empty and have no dots keep the keys apart.

Fixing writes documents only, and the patterns of source files find none of these
(`source_of_mem_discover`).  The source document is itself among the documents that are pruned
(`source_of_fix`).
-/

namespace MessageKeys

open OutputLine

/-! ## Source files are no documents -/

theorem not_isDocumentName_of_suffix {tail name : Text} (h : tail <:+ name)
    (htail : isDocumentName tail = false) (hlonger : ¬tail <:+ Text.ofString ".json") :
    isDocumentName name = false := by
  rw [← Bool.not_eq_true] at htail ⊢
  intro hname
  rcases List.suffix_or_suffix_of_suffix (List.isSuffixOf_iff_suffix.mp hname) h with hend | hend
  · exact htail (List.isSuffixOf_iff_suffix.mpr hend)
  · exact hlonger hend

/-- The default patterns find files that are known by their plain paths, and no documents. -/
theorem FileSystem.source_of_mem_discover {fs : FileSystem} (hfs : fs.WellFormed)
    {directory : Path} {places : List AbsolutePath}
    (h : fs.discover CheckConfig.defaultPatterns directory = .ok places) {place : AbsolutePath}
    (hplace : place ∈ places) :
    Path.Plain place ∧
      ∃ parent name, place = parent ++ [name] ∧ isDocumentName (PathName.stored name) = false := by
  obtain ⟨pattern, hpattern, found, hfound, hplace⟩ := mem_discover h hplace
  obtain ⟨tail, htail, hplain, parent, name, rfl, hsuffix⟩ :
      ∃ tail ∈ [Text.ofString ".ts", Text.ofString ".tsx"], Path.Plain place ∧
        ∃ parent name, place = parent ++ [name] ∧ tail <:+ name := by
    -- both patterns end in a star before the extension
    rcases List.mem_pair.mp hpattern with rfl | rfl
    · refine ⟨Text.ofString ".ts", by simp, ?_⟩
      have hpieces : Wildcard.compact ((Wildcard.pieces "src/**/*.ts").dropWhile
          fun piece => !Wildcard.hasMagic piece) = ["**"] ++ ["*.ts"] := by cbv
      exact suffix_of_mem_matching hfs.unlinked hfs.working hpieces (by decide) (by decide) (by cbv)
        (by decide) hfound hplace
    · refine ⟨Text.ofString ".tsx", by simp, ?_⟩
      have hpieces : Wildcard.compact ((Wildcard.pieces "src/**/*.tsx").dropWhile
          fun piece => !Wildcard.hasMagic piece) = ["**"] ++ ["*.tsx"] := by cbv
      exact suffix_of_mem_matching hfs.unlinked hfs.working hpieces (by decide) (by decide) (by cbv)
        (by decide) hfound hplace
  have hends : (∀ c ∈ tail, c.val < 0x80) ∧ isDocumentName tail = false ∧
      ¬tail <:+ Text.ofString ".json" := by
    rw [← List.isSuffixOf_iff_suffix]
    rcases List.mem_pair.mp htail with rfl | rfl
    · exact ⟨by simp [Text.ofString, CodePoint.ofChar], by decide, by decide⟩
    · exact ⟨by simp [Text.ofString, CodePoint.ofChar], by decide, by decide⟩
  exact ⟨hplain, parent, name, rfl, not_isDocumentName_of_suffix
    (PathName.suffix_stored hends.1 hsuffix) hends.2.1 hends.2.2⟩

/-! ## The same usages -/

theorem Project.ofFiles_congr {before after : FileSystem}
    (houtline : after.outline = before.outline) {paths : List Path}
    (h : ∀ path ∈ paths, after.readSource path = before.readSource path) (root : Option Text) :
    Project.ofFiles after root paths = Project.ofFiles before root paths := by
  have hunreadable : after.unreadable = before.unreadable := by
    funext path e
    unfold FileSystem.unreadable
    rw [FileSystem.resolve_congr houtline]
  unfold Project.ofFiles
  -- the step is the same on every project, not only on the empty one
  generalize (Project.empty root, ([] : List Notice)) = start
  induction paths generalizing start with
  | nil => rfl
  | cons path rest ih =>
      obtain ⟨hpath, hrest⟩ := List.forall_mem_cons.mp h
      rw [List.foldlM_cons, List.foldlM_cons, hpath, hunreadable]
      refine bind_congr fun next => ?_
      rw [← ih hrest next, hunreadable]

/-- A file that the default patterns find reads the same as long as only documents are written. -/
theorem FileSystem.readSource_congr {before after : FileSystem} (hbefore : before.WellFormed)
    (houtline : after.outline = before.outline)
    (hentry : ∀ place name, isDocumentName name = false →
      after.entry? (place ++ [name]) = before.entry? (place ++ [name]))
    {directory : Path} {places : List AbsolutePath}
    (hplaces : before.discover CheckConfig.defaultPatterns directory = .ok places)
    {place : AbsolutePath} (hplace : place ∈ places) :
    after.readSource (Path.ofAbsolute place) = before.readSource (Path.ofAbsolute place) := by
  obtain ⟨hplain, parent, name, rfl, hname⟩ := source_of_mem_discover hbefore hplaces hplace
  have hresolve := resolve_ofAbsolute hplain before.workingDirectory
  unfold readSource
  rw [resolve?_congr houtline]
  cases hfound : before.resolve? (Path.ofAbsolute (parent ++ [name])) with
  | error fault => rfl
  | ok found =>
      obtain rfl : found = parent ++ [name] :=
        (eq_resolve_of_unlinked hbefore.unlinked hfound).trans hresolve
      dsimp only
      rw [readFile_congr houtline]
      -- the walk ends at the name as it is stored, and that is no document's either
      intro spot f hlocate
      rw [place_of_locate hbefore.unlinked hbefore.working (fun part hpart => (hplain part hpart).1)
        hlocate,
        hresolve, List.map_append]
      exact hentry _ _ hname

namespace CheckConfig

/-- Source files that the default patterns find use the same keys as long as only documents are
written. -/
theorem usages_congr {config : CheckConfig} (hpatterns : config.patterns = defaultPatterns)
    {before after : FileSystem} (hbefore : before.WellFormed)
    (houtline : after.outline = before.outline)
    (hentry : ∀ place name, isDocumentName name = false →
      after.entry? (place ++ [name]) = before.entry? (place ++ [name])) :
    config.usages after = config.usages before := by
  have hdiscover : after.discover config.patterns config.directory
      = before.discover config.patterns config.directory := by
    rw [← FileSystem.discover_outline, houtline, FileSystem.discover_outline]
  unfold usages
  dsimp only
  rw [hdiscover, FileSystem.resolve?_congr houtline]
  cases hplaces : before.discover config.patterns config.directory with
  | error e => rfl
  | ok places =>
      rw [hpatterns] at hplaces
      have hread : ∀ path ∈ places.map Path.ofAbsolute,
          after.readSource path = before.readSource path := by
        intro path hpath
        obtain ⟨place, hplace, rfl⟩ := List.mem_map.mp hpath
        exact FileSystem.readSource_congr hbefore houtline hentry hplaces hplace
      have hpure : (Except.ok places : Except Wildcard.SearchError _) = pure places := rfl
      rw [hpure, pure_bind, pure_bind]
      refine bind_congr fun root => ?_
      rw [Project.ofFiles_congr houtline hread]

end CheckConfig

/-! ## Keys that are erased apart -/

namespace Document

/-- Erasing the unused keys of a document takes out these and no others: every used key keeps a leaf
that is not at or below the segments of an unused one, and every leaf of an unused key is. -/
structure Separates (document : Document) (used : KeySet) : Prop where
  kept : ∀ key ∈ document.keys, key ∈ used → ∃ path ∈ document.leaves, Key.ofPath path = key ∧
    ∀ unused ∈ document.keys, unused ∉ used → ¬Key.segments unused <+: path
  erased : ∀ path ∈ document.leaves, Key.ofPath path ∉ used →
    ∃ unused ∈ document.keys, unused ∉ used ∧ Key.segments unused <+: path

theorem mem_keys_pruned {document : Document} {used : KeySet} {key : Text} :
    key ∈ (document.pruned used).keys ↔ ∃ path ∈ document.leaves, Key.ofPath path = key ∧
      ∀ unused ∈ document.keys, unused ∉ used → ¬Key.segments unused <+: path := by
  have hunused : ∀ other, other ∈ (Reconciliation.compare document.keys used).unused.toList ↔
      other ∈ document.keys ∧ other ∉ used :=
    fun other => KeySet.mem_toList.trans KeySet.mem_diff
  unfold pruned
  rw [mem_keys_eraseKeys]
  simp only [hunused, and_imp]

theorem keys_pruned_eq_iff {document : Document} {used : KeySet} :
    (document.pruned used).keys = document.keys.inter used ↔ document.Separates used := by
  constructor
  · intro h
    refine ⟨fun key hkey hused => ?_, fun path hpath hnot => ?_⟩
    · apply mem_keys_pruned.mp
      rw [h]
      exact KeySet.mem_inter.mpr ⟨hkey, hused⟩
    · by_contra hnone
      push Not at hnone
      have hmem : Key.ofPath path ∈ (document.pruned used).keys :=
        mem_keys_pruned.mpr ⟨path, hpath, rfl, hnone⟩
      rw [h] at hmem
      exact hnot (KeySet.mem_inter.mp hmem).2
  · intro h
    ext key
    rw [mem_keys_pruned, KeySet.mem_inter]
    constructor
    · rintro ⟨path, hpath, rfl, houtside⟩
      refine ⟨mem_keys.mpr ⟨path, hpath, rfl⟩, ?_⟩
      by_contra hnot
      obtain ⟨unused, hdefined, hunused, hprefix⟩ := h.erased path hpath hnot
      exact houtside unused hdefined hunused hprefix
    · rintro ⟨hkey, hused⟩
      exact h.kept key hkey hused

end Document

/-! ## The source document under a fix -/

namespace CheckConfig

section

variable [Json.Limits] {config : CheckConfig} {fs after : FileSystem}

/-- Where a source document stands. -/
theorem SourceHolds.located (hconfig : config.WellFormed) (hfs : fs.WellFormed)
    {document : Document} (h : config.SourceHolds fs document) :
    ∃ root place given f, config.messagesRoot fs = .ok root ∧
      fs.locate (Path.ofAbsolute root) = .ok (place, .directory given) ∧
      config.sourceDocument fs = .ok ((Path.ofAbsolute root).child config.documentName) ∧
      fs.locate ((Path.ofAbsolute root).child config.documentName)
        = .ok (place ++ [PathName.stored config.documentName], .file f) ∧
      ∀ path, Document.decode path f.content = .ok document := by
  obtain ⟨path, hpath, hread⟩ := (sourceHolds_iff hconfig hfs).mp h
  have hsource := sourceDocument_eq hconfig fs
  rw [hpath] at hsource
  cases hroot : config.messagesRoot fs with
  | error fault =>
      rw [hroot] at hsource
      contradiction
  | ok root =>
      rw [hroot] at hsource
      obtain rfl := Except.ok.inj hsource
      obtain ⟨spot, f, hspot, hdecode⟩ := FileSystem.readMessages_eq_ok_iff.mp hread
      obtain ⟨hpart, hup⟩ := isPart_of_isDocumentName
        (isDocumentName_documentName config.sourceLocale)
      obtain ⟨place, given, rfl, hlocate⟩ := FileSystem.locate_of_child hpart hup hspot
      rw [FileSystem.landing_of_unlinked hfs.unlinked] at hspot
      exact ⟨root, place, given, f, rfl, hlocate, hpath, hspot,
        fun other => Pruning.decode_congr _ other hdecode⟩

/-- What the source document holds after its file was given other content. -/
theorem sourceHolds_iff_decode (hconfig : config.WellFormed) (hfs : fs.WellFormed)
    (houtline : after.outline = fs.outline) {path : Path}
    (hpath : config.sourceDocument fs = .ok path)
    {spot : AbsolutePath} {f g : File} (hspot : fs.locate path = .ok (spot, .file f))
    (hg : after.entry? spot = some (.file g)) {document : Document} :
    config.SourceHolds after document ↔ Document.decode path.toText g.content = .ok document := by
  have hsame : config.sourceDocument after = .ok path := by
    rw [← hpath]
    unfold sourceDocument messagesRoot
    rw [FileSystem.resolve?_congr houtline]
  have hread := FileSystem.readMessages_of_readFile (FileSystem.readFile_of_locate
    (FileSystem.locate_file_of_outline houtline hspot hg))
  rw [sourceHolds_iff hconfig (hfs.of_outline houtline), hsame, ← hread]
  simp

/-- What is left of a document that was to be written as `pruned`, to a file with a fault or
without; `holds` says what document the file holds afterwards. -/
inductive LeftInFile (holds : Document → Prop) (document pruned : Document) :
    Option WriteFault → Prop
  | written (hholds : holds pruned) : LeftInFile holds document pruned none
  /-- The file could not be opened. -/
  | denied {reason : Text} (hholds : holds document) :
      LeftInFile holds document pruned (some (.refused reason))
  /-- At least all but the last newline got to the file. -/
  | spared {kept : ℕ} {reason : Text} {bytes : Bytes}
      (hbytes : Utf8.encode? pruned.render = some bytes) (hkept : bytes.length ≤ kept + 1)
      (hholds : holds pruned) : LeftInFile holds document pruned (some (.cut kept reason))
  /-- More is missing. -/
  | lost {kept : ℕ} {reason : Text} {bytes : Bytes}
      (hbytes : Utf8.encode? pruned.render = some bytes) (hshort : kept + 1 < bytes.length)
      (hnone : ∀ other, ¬holds other) : LeftInFile holds document pruned (some (.cut kept reason))

/-- A document at which pruning does not stop is left as its verdict says. -/
theorem leftInFile_of_judged {document : Document} {keys : List Text} {path : Path} {f : File}
    {fault : Option WriteFault} {v : Pruning.Verdict} {text : Text}
    (hdecode : ∀ path, Document.decode path f.content = .ok document)
    (hjudged : Pruning.Judged keys path f.content fault v) (hnone : v.stopped = none)
    {holds : Document → Prop}
    (hholds : ∀ other, holds other ↔ Document.decode text (v.file f).content = .ok other) :
    LeftInFile holds document (document.eraseKeys keys).1 fault := by
  have hloadable :=
    Document.loadable_eraseKeys (Document.loadable_of_decode (hdecode path.toText)) keys
  cases hjudged with
  | unloadable | refused | unencodable => contradiction
  | unusable hunusable =>
      rw [hdecode] at hunusable
      contradiction
  | denied => exact .denied ((hholds _).mpr (hdecode _))
  | @cut other bytes kept reason hother hdepth hbytes =>
      obtain rfl := Except.ok.inj ((hdecode _).symm.trans hother)
      by_cases hshort : kept + 1 < bytes.length
      · refine .lost hbytes hshort fun found hfound => ?_
        exact Document.decode_take_ne_ok hloadable hbytes hshort _ found ((hholds _).mp hfound)
      · refine .spared hbytes (Nat.le_of_not_lt hshort) ((hholds _).mpr ?_)
        exact (Document.decode_take_eq_ok_iff hloadable hbytes).mpr ⟨by omega, rfl⟩
  | whole hother hdepth hbytes =>
      obtain rfl := Except.ok.inj ((hdecode _).symm.trans hother)
      exact .written ((hholds _).mpr (Document.decode_encode hloadable hbytes _))

end

section

variable [Console] [Json.Limits] [Locale.Catalogue] {config : CheckConfig} {fs : FileSystem}

/-- A fix that came to its end pruned all the documents of the messages directory. -/
theorem fix_of_exit {unused : KeySet} {code : ℕ} (h : (config.fix fs unused).exit = .ok code)
    {root place : AbsolutePath} {given : Option Int} (hroot : config.messagesRoot fs = .ok root)
    (hlocate : fs.locate (Path.ofAbsolute root) = .ok (place, .directory given)) :
    let pruning := fs.pruneWhile isTaken (Path.ofAbsolute root) unused
    (config.fix fs unused).files = pruning.files ∧ pruning.stopped = none ∧
      pruning.outcomes.all isTaken = true ∧
      ∃ paths, fs.documents? (Path.ofAbsolute root) = .ok (some paths) := by
  intro pruning
  obtain ⟨hfiles, hexit⟩ :=
    fix_of_directory hroot (FileSystem.isDirectory_of_locate hlocate) unused
  obtain ⟨hpruned, hends⟩ := fixAt_eq fs root unused
  obtain ⟨hstopped, htaken⟩ := hends code (hexit.symm.trans h)
  refine ⟨hfiles.trans hpruned, hstopped, htaken, ?_⟩
  -- a directory whose documents cannot be listed would have stopped the run
  unfold FileSystem.pruneWhile at hstopped
  cases hdocuments : fs.documents? (Path.ofAbsolute root) with
  | error e =>
      rw [hdocuments] at hstopped
      contradiction
  | ok found =>
      cases found with
      | some paths => exact ⟨paths, rfl⟩
      | none =>
          unfold FileSystem.documents? at hdocuments
          rw [hlocate] at hdocuments
          dsimp only at hdocuments
          split_ifs at hdocuments
          cases Except.ok.inj hdocuments

theorem outline_fix (config : CheckConfig) (fs : FileSystem) (unused : KeySet) :
    (config.fix fs unused).files.outline = fs.outline := by
  rcases config.files_fix_cases fs unused with hfiles | ⟨root, -, hfiles⟩
  · rw [hfiles]
  · rw [hfiles]
    exact FileSystem.outline_pruneWhile ..

/-- After a fix that came to its end the source document is what it was without the unused keys, as
far as its file can be written. -/
theorem source_of_fix (hconfig : config.WellFormed) (hfs : fs.WellFormed) {document : Document}
    (h : config.SourceHolds fs document) {unused : KeySet} {code : ℕ}
    (hexit : (config.fix fs unused).exit = .ok code) :
    ∃ path place f, config.sourceDocument fs = .ok path ∧ fs.locate path = .ok (place, .file f) ∧
      LeftInFile (config.SourceHolds (config.fix fs unused).files) document
        (document.eraseKeys unused.toList).1 (fs.fault? place) := by
  obtain ⟨root, place, given, f, hroot, hlocate, hpath, hspot, hdecode⟩ := h.located hconfig hfs
  obtain ⟨hfiles, hstopped, htaken, paths, hpaths⟩ := fix_of_exit hexit hroot hlocate
  refine ⟨_, _, f, hpath, hspot, ?_⟩
  -- the document stands under its stored name, and that is the name of a document as well
  have hf := FileSystem.entry?_of_locate hspot
  have hname : PathName.stored config.documentName ∈ fs.documentNames place :=
    (FileSystem.mem_documentNames hfs).mpr
      ⟨isDocumentName_stored (isDocumentName_documentName config.sourceLocale), f, hf⟩
  have hprunes := FileSystem.prunes_pruneWhile hfs hlocate hpaths isTaken unused
  have hreached := hprunes.reached_eq hstopped htaken
  have hgoesOn := hstopped
  rw [hprunes.stopped, hreached, List.findSome?_eq_none_iff] at hgoesOn
  have hentry := hprunes.file _ (hreached.symm ▸ hname) f hf
  rw [← hfiles] at hentry
  exact leftInFile_of_judged hdecode (Pruning.judged_verdictAt hf) (hgoesOn _ hname) fun _ =>
    sourceHolds_iff_decode hconfig hfs (config.outline_fix fs unused) hpath hspot hentry

/-- A fix changes nothing that its source files use. -/
theorem usages_fix (hfs : fs.WellFormed) (hpatterns : config.patterns = defaultPatterns)
    (unused : KeySet) : config.usages (config.fix fs unused).files = config.usages fs := by
  refine usages_congr hpatterns hfs (config.outline_fix fs unused) fun place name hname => ?_
  by_contra hchanged
  obtain ⟨-, spot, -, other, -, -, -, -, hother, hplace, -⟩ := changed_of_fix hchanged
  rw [hfs.unlinked, or_iff_left List.not_mem_nil] at hplace
  obtain ⟨-, hsame⟩ := List.append_inj' hplace rfl
  rw [List.singleton_inj.mp hsame, hother] at hname
  contradiction

/-- What a fix that passed leaves, where `document` was the source document and `trace` holds the
usages. -/
structure FixLeaves (config : CheckConfig) (fs after : FileSystem) (document : Document)
    (trace : Trace) : Prop where
  /-- The source document could be loaded and defined keys, among them every used one. -/
  source : config.SourceHolds fs document ∧ ∃ key, key ∈ document.keys
  defined : ∀ key ∈ trace.usedKeys, key ∈ document.keys
  /-- The source files use the same keys as before. -/
  usages : ∃ notices, config.usages fs = .ok (trace, notices) ∧
    config.usages after = .ok (trace, notices)
  /-- If nothing was unused, nothing changed. -/
  kept : (∀ key ∈ document.keys, key ∈ trace.usedKeys) → after = fs
  /-- Otherwise the source document lost its unused keys, as far as its file can be written. -/
  pruned : (∃ key ∈ document.keys, key ∉ trace.usedKeys) → ∃ path place f,
    config.sourceDocument fs = .ok path ∧ fs.locate path = .ok (place, .file f) ∧
      LeftInFile (config.SourceHolds after) document (document.pruned trace.usedKeys)
        (fs.fault? place)

/-- A run in fix mode that passed did something about the unused keys, and there were no missing
ones. -/
theorem outcome_of_fix (hexit : ((config.inMode .fix).run fs {}).exit = .ok 0) :
    ∃ outcome ended, config.outcome? fs = some outcome ∧ CheckReport.exitCode outcome = 0 ∧
      ((config.inMode .fix).remedy fs outcome.unused).exit = .ok ended ∧
      ((config.inMode .fix).run fs {}).files
        = ((config.inMode .fix).remedy fs outcome.unused).files := by
  obtain ⟨hfiles, hend, -⟩ := run_of_shown (shown_of_exit hexit)
  rw [hend] at hexit
  rw [hfiles]
  cases houtcome : config.outcome? fs with
  | none =>
      obtain ⟨exit, hne, hconclusion⟩ := conclusion_of_none houtcome
      rw [hconclusion .fix] at hexit
      exact absurd hexit hne
  | some outcome =>
      have hmode : (config.inMode .fix).outcome? fs = some outcome := houtcome
      obtain ⟨hconclusion, hcode, -⟩ := conclusion_of_some hmode
      rw [hcode] at hexit
      obtain ⟨ended, hended, hzero⟩ := map_eq_ok_iff.mp hexit
      exact ⟨outcome, ended, rfl, hzero, hended, hconclusion⟩

theorem fixLeaves_of_exit (hconfig : config.WellFormed) (hfs : fs.WellFormed)
    (hpatterns : config.patterns = defaultPatterns)
    (hexit : ((config.inMode .fix).run fs {}).exit = .ok 0) :
    ∃ document trace,
      FixLeaves config fs ((config.inMode .fix).run fs {}).files document trace := by
  obtain ⟨outcome, ended, houtcome, hzero, hended, hfiles⟩ := outcome_of_fix hexit
  obtain ⟨document, trace, notices, hsource, hkeys, husages, rfl⟩ :=
    outcome?_eq_some_iff_source.mp houtcome
  have hdefined := exitCode_compare_eq_zero_iff.mp hzero
  have hempty : (Reconciliation.compare document.keys trace.usedKeys).unused.isEmpty = true ↔
      ∀ key ∈ document.keys, key ∈ trace.usedKeys := KeySet.isEmpty_diff_iff
  rw [hfiles]
  by_cases hunused : (Reconciliation.compare document.keys trace.usedKeys).unused.isEmpty = true
  · have hkept : (config.inMode .fix).remedy fs
        (Reconciliation.compare document.keys trace.usedKeys).unused
          = { files := fs, exit := .ok 0 } :=
      if_pos hunused
    rw [hkept]
    refine ⟨document, trace, ⟨hsource, hkeys⟩, hdefined, ⟨notices, husages, husages⟩,
      fun _ => rfl, ?_⟩
    rintro ⟨key, hkey, hnot⟩
    exact absurd (hempty.mp hunused key hkey) hnot
  · have hfix : (config.inMode .fix).remedy fs
        (Reconciliation.compare document.keys trace.usedKeys).unused
          = (config.inMode .fix).fix fs
            (Reconciliation.compare document.keys trace.usedKeys).unused :=
      if_neg hunused
    rw [hfix] at hended ⊢
    have hsame : (config.inMode .fix).usages ((config.inMode .fix).fix fs
        (Reconciliation.compare document.keys trace.usedKeys).unused).files
          = (config.inMode .fix).usages fs := usages_fix hfs hpatterns _
    refine ⟨document, trace, ⟨hsource, hkeys⟩, hdefined, ⟨notices, husages, hsame.trans husages⟩,
      fun hall => absurd (hempty.mpr hall) hunused, fun _ => ?_⟩
    exact source_of_fix (hconfig.inMode .fix) hfs hsource hended

end

/-! ## The check after the fix -/

/-- The lines on the used keys if nothing is missing. -/
def usedLines (trace : Trace) : List OutputLine :=
  [out (Text.ofString "Found " ++ Numeral.decimal trace.usedKeys.size
      ++ Text.ofString " unique used keys in code."),
    out "\n--- Analysis Report ---"]
    ++ CheckReport.dynamicLines trace.dynamicUsages
    ++ [out "\n[OK] No missing messages found."]

/-- What a check prints after its opening if the keys that are defined are those that are used. -/
def passingReport (config : CheckConfig) (trace : Trace) : List OutputLine :=
  CheckReport.definedLine config trace.usedKeys.size :: usedLines trace
    ++ [out "\n[OK] No unused messages found.", out "\nAll checks passed! Great job."]

/-- A check passes with nothing to report. -/
def PassesClean (config : CheckConfig) (trace : Trace) (check : CheckRun) : Prop :=
  check.exit = .ok 0 ∧
    check.lines = CheckReport.opening (config.inMode .check) ++ config.passingReport trace

/-- If nothing is missing, the report on the used keys ends with that. -/
theorem usedReport_of_defined {config : CheckConfig} {defined : KeySet} {trace : Trace}
    (h : ∀ key ∈ trace.usedKeys, key ∈ defined) :
    config.usedReport defined trace = usedLines trace := by
  have hmissing : (Reconciliation.compare defined trace.usedKeys).missing.isEmpty = true :=
    KeySet.isEmpty_diff_iff.mpr h
  unfold usedReport CheckReport.missingLines
  rw [if_pos hmissing]
  rfl

/-- The report on unused keys says that there are none only if there are none. -/
theorem isEmpty_of_unusedReport {unused : KeySet} {rest more : List OutputLine}
    (h : unusedReport unused ++ rest = out "\n[OK] No unused messages found." :: more) :
    unused.isEmpty = true := by
  by_contra hempty
  unfold unusedReport at h
  rw [if_neg hempty] at h
  have hhead := OutputLine.out.inj (List.cons.inj h).1
  simp [Text.ofString, CodePoint.ofChar] at hhead

section

variable [Console] [Json.Limits] [Locale.Catalogue] {config : CheckConfig} {fs : FileSystem}

omit [Console] [Locale.Catalogue] in
/-- If nothing is missing, the findings are the same up to the report on unused keys. -/
theorem findings_of_defined {trace : Trace} {notices : List Notice} {document : Document}
    (husages : config.usages fs = .ok (trace, notices)) (hsource : config.SourceHolds fs document)
    (hkeys : ∃ key, key ∈ document.keys) (hall : ∀ key ∈ trace.usedKeys, key ∈ document.keys) :
    config.findings fs = CheckReport.definedLine config document.keys.size :: usedLines trace
      ++ unusedReport (Reconciliation.compare document.keys trace.usedKeys).unused := by
  have hdefined : config.definedKeys fs {} = .ok document.keys :=
    definedKeys_eq_ok_iff.mpr ⟨document, hsource, rfl⟩
  rw [findings_of_some hdefined (KeySet.isEmpty_eq_false_iff.mpr hkeys) husages,
    usedReport_of_defined hall]

theorem afterword_of_clean {outcome : Reconciliation} (houtcome : config.outcome? fs = some outcome)
    (hunused : outcome.unused.isEmpty = true) (hzero : CheckReport.exitCode outcome = 0) :
    (config.inMode .check).afterword fs = [out "\nAll checks passed! Great job."] := by
  have herrors : ¬outcome.hasErrors = true := by
    intro herrors
    unfold CheckReport.exitCode at hzero
    rw [if_pos herrors] at hzero
    contradiction
  unfold afterword remedy CheckReport.closing
  rw [show (config.inMode .check).outcome? fs = some outcome from houtcome]
  dsimp only
  rw [if_pos hunused, if_pos hunused, if_neg herrors]
  rfl

/-- A check passes with nothing to report exactly if the keys that are defined are those that are
used, and there are any. -/
theorem passesClean_iff {trace : Trace} {notices : List Notice} {document : Document}
    (hdirectory : config.messagesDirectory.isShown = true)
    (hlocale : config.sourceLocale.isShown = true)
    (husages : config.usages fs = .ok (trace, notices)) (hsource : config.SourceHolds fs document) :
    config.PassesClean trace ((config.inMode .check).run fs {}) ↔
      document.keys = trace.usedKeys ∧ ∃ key, key ∈ trace.usedKeys := by
  constructor
  · rintro ⟨hexit, hlines⟩
    obtain ⟨hshown, outcome, houtcome, hzero⟩ := exit_check_eq_zero_iff.mp hexit
    obtain ⟨other, found, told, hother, hkeys, hfound, rfl⟩ :=
      outcome?_eq_some_iff_source.mp houtcome
    obtain rfl := hsource.unique hother
    obtain ⟨rfl, -⟩ := Prod.mk.inj (Except.ok.inj (husages.symm.trans hfound))
    have hall := exitCode_compare_eq_zero_iff.mp hzero
    have hrun := (run_of_shown (hshown.inMode .check)).2.2
    rw [hlines, show (config.inMode .check).findings fs = config.findings fs from rfl,
      findings_of_defined husages hsource hkeys hall, List.append_assoc,
      List.append_cancel_left_eq] at hrun
    rw [passingReport, List.append_assoc, List.cons_append, List.cons_append] at hrun
    obtain ⟨-, hrest⟩ := List.cons.inj hrun
    rw [List.append_cancel_left_eq] at hrest
    have hkeep : ∀ key ∈ document.keys, key ∈ trace.usedKeys :=
      KeySet.isEmpty_diff_iff.mp (isEmpty_of_unusedReport hrest.symm)
    obtain ⟨key, hkey⟩ := hkeys
    refine ⟨?_, key, hkeep key hkey⟩
    ext key
    exact ⟨hkeep key, hall key⟩
  · rintro ⟨hkeys, key, hkey⟩
    have hall : ∀ key ∈ trace.usedKeys, key ∈ document.keys := fun key hkey => hkeys ▸ hkey
    have houtcome : config.outcome? fs
        = some (Reconciliation.compare document.keys trace.usedKeys) :=
      outcome?_eq_some_iff_source.mpr
        ⟨document, trace, notices, hsource, ⟨key, hall key hkey⟩, husages, rfl⟩
    have hunused : (Reconciliation.compare document.keys trace.usedKeys).unused.isEmpty = true :=
      KeySet.isEmpty_diff_iff.mpr fun key hkey => hkeys ▸ hkey
    have hzero : CheckReport.exitCode (Reconciliation.compare document.keys trace.usedKeys) = 0 :=
      exitCode_compare_eq_zero_iff.mpr hall
    have hshown : config.Shown fs := by
      refine ⟨hdirectory, hlocale, fun outcome hother key hkey => ?_⟩
      obtain rfl := Option.some.inj (houtcome.symm.trans hother)
      exact absurd hkey (KeySet.isEmpty_iff.mp hunused key)
    have hreport : unusedReport (Reconciliation.compare document.keys trace.usedKeys).unused
        = [out "\n[OK] No unused messages found."] := if_pos hunused
    refine ⟨exit_check_eq_zero_iff.mpr ⟨hshown, _, houtcome, hzero⟩, ?_⟩
    rw [(run_of_shown (hshown.inMode .check)).2.2, (conclusion_check houtcome).2,
      afterword_of_clean houtcome hunused hzero,
      show (config.inMode .check).findings fs = config.findings fs from rfl,
      findings_of_defined husages hsource ⟨key, hall key hkey⟩ hall, hreport, hkeys]
    simp [passingReport]

/-- A check of a document without keys fails. -/
theorem run_of_isEmpty {defined : KeySet} (hdirectory : config.messagesDirectory.isShown = true)
    (hlocale : config.sourceLocale.isShown = true)
    (hdefined : config.definedKeys fs {} = .ok defined) (hempty : defined.isEmpty = true) :
    (config.run fs {}).exit = .ok 1 ∧ (config.run fs {}).lines = CheckReport.opening config
      ++ [CheckReport.definedLine config 0, CheckReport.emptyLine config] := by
  have hshown : config.Shown fs := by
    refine ⟨hdirectory, hlocale, fun outcome houtcome => ?_⟩
    obtain ⟨other, -, -, hother, hnonempty, -⟩ := outcome?_eq_some_iff.mp houtcome
    obtain rfl := Except.ok.inj (hdefined.symm.trans hother)
    rw [hempty] at hnonempty
    contradiction
  have hsize : defined.size = 0 := List.length_eq_zero_iff.mpr (List.isEmpty_iff.mp hempty)
  obtain ⟨-, hexit, hlines⟩ := run_of_shown hshown
  rw [hexit, hlines]
  unfold conclusion findings
  rw [hdefined]
  dsimp only
  rw [if_pos hempty, if_pos hempty, hsize, List.append_nil]
  exact ⟨rfl, rfl⟩

/-- What the next check makes of what a fix left. -/
structure NextCheck (config : CheckConfig) (after : FileSystem) (document : Document)
    (trace : Trace) (check : CheckRun) : Prop where
  /-- It passes with nothing to report exactly if there was nothing to erase, or the document was
  written without its unused keys, a key is used, and no other keys went with the unused ones. -/
  passes : config.PassesClean trace check ↔
    (∀ key ∈ document.keys, key ∈ trace.usedKeys) ∨
      config.SourceHolds after (document.pruned trace.usedKeys) ∧
        (∃ key, key ∈ trace.usedKeys) ∧ document.Separates trace.usedKeys
  /-- Names that are not empty and have no dots keep the keys apart. -/
  separates : document.plainNames = true → document.Separates trace.usedKeys
  /-- If no key is used, the document has no keys left, and that fails the check. -/
  emptied : config.SourceHolds after (document.pruned trace.usedKeys) →
    document.Separates trace.usedKeys → trace.usedKeys.isEmpty = true → check.exit = .ok 1 ∧
      check.lines = CheckReport.opening (config.inMode .check)
        ++ [CheckReport.definedLine config 0, CheckReport.emptyLine config]

omit [Console] [Locale.Catalogue] in
theorem FixLeaves.inter_usedKeys {after : FileSystem} {document : Document} {trace : Trace}
    (h : FixLeaves config fs after document trace) :
    document.keys.inter trace.usedKeys = trace.usedKeys := by
  ext key
  rw [KeySet.mem_inter]
  exact ⟨And.right, fun hused => ⟨h.defined key hused, hused⟩⟩

/-- If keys were to be erased, the next check passes with nothing to report exactly if they were,
and only they. -/
theorem FixLeaves.passesClean_iff_pruned {after : FileSystem} {document : Document} {trace : Trace}
    (h : FixLeaves config fs after document trace)
    (hdirectory : config.messagesDirectory.isShown = true)
    (hlocale : config.sourceLocale.isShown = true)
    (hunused : ∃ key ∈ document.keys, key ∉ trace.usedKeys) :
    config.PassesClean trace ((config.inMode .check).run after {}) ↔
      config.SourceHolds after (document.pruned trace.usedKeys) ∧
        (∃ key, key ∈ trace.usedKeys) ∧ document.Separates trace.usedKeys := by
  obtain ⟨notices, -, husages⟩ := h.usages
  have hwritten : config.SourceHolds after (document.pruned trace.usedKeys) →
      (config.PassesClean trace ((config.inMode .check).run after {}) ↔
        config.SourceHolds after (document.pruned trace.usedKeys) ∧
          (∃ key, key ∈ trace.usedKeys) ∧ document.Separates trace.usedKeys) := by
    intro hheld
    rw [passesClean_iff hdirectory hlocale husages hheld, and_iff_right hheld,
      ← Document.keys_pruned_eq_iff, h.inter_usedKeys, and_comm]
  obtain ⟨path, place, f, -, -, hleft⟩ := h.pruned hunused
  generalize fs.fault? place = fault at hleft
  cases hleft with
  | written hholds => exact hwritten hholds
  | spared hbytes hkept hholds => exact hwritten hholds
  | denied hholds =>
      -- the unused keys are still there
      have hne : document.keys ≠ trace.usedKeys := by
        intro hsame
        obtain ⟨key, hkey, hnot⟩ := hunused
        exact hnot (hsame ▸ hkey)
      refine iff_of_false (fun hpasses => hne
        ((passesClean_iff hdirectory hlocale husages hholds).mp hpasses).1) ?_
      rintro ⟨hheld, -, hseparates⟩
      have hkeys := Document.keys_pruned_eq_iff.mpr hseparates
      rw [← hholds.unique hheld, h.inter_usedKeys] at hkeys
      exact hne hkeys
  | lost hbytes hshort hnone =>
      refine iff_of_false (fun hpasses => ?_) fun hheld => hnone _ hheld.1
      obtain ⟨-, outcome, houtcome, -⟩ := exit_check_eq_zero_iff.mp hpasses.1
      obtain ⟨other, -, -, hother, -⟩ := outcome?_eq_some_iff_source.mp houtcome
      exact hnone other hother

/-- What the next check makes of what a fix left follows from that alone. -/
theorem FixLeaves.nextCheck {after : FileSystem} {document : Document} {trace : Trace}
    (h : FixLeaves config fs after document trace)
    (hdirectory : config.messagesDirectory.isShown = true)
    (hlocale : config.sourceLocale.isShown = true) :
    NextCheck config after document trace ((config.inMode .check).run after {}) := by
  obtain ⟨notices, -, husages⟩ := h.usages
  obtain ⟨hsource, key, hkey⟩ := h.source
  refine ⟨?_, fun hplain => ?_, fun hpruned hseparates hempty => ?_⟩
  · by_cases hall : ∀ key ∈ document.keys, key ∈ trace.usedKeys
    · have hkept : config.SourceHolds after document := by
        rw [h.kept hall]
        exact hsource
      have hkeys : document.keys = trace.usedKeys := by
        ext key
        exact ⟨hall key, h.defined key⟩
      exact iff_of_true ((passesClean_iff hdirectory hlocale husages hkept).mpr
        ⟨hkeys, key, hall key hkey⟩) (Or.inl hall)
    · rw [or_iff_right hall]
      push Not at hall
      exact h.passesClean_iff_pruned hdirectory hlocale hall
  · obtain ⟨path, place, -, -, hread⟩ := hsource
    obtain ⟨-, f, -, hdecode⟩ := FileSystem.readMessages_eq_ok_iff.mp hread
    exact Document.keys_pruned_eq_iff.mp
      (Document.keys_pruned (Document.loadable_of_decode hdecode) hplain _)
  · have hdefined : (config.inMode .check).definedKeys after {} = .ok trace.usedKeys := by
      refine definedKeys_eq_ok_iff.mpr ⟨_, hpruned, ?_⟩
      rw [Document.keys_pruned_eq_iff.mpr hseparates, h.inter_usedKeys]
    exact run_of_isEmpty hdirectory hlocale hdefined hempty

/-- After a fix that passed, the next check passes with nothing to report exactly if there was
nothing to erase, or the source document could be written, a key is used, and the names in the
document keep the used keys apart from the unused ones. -/
theorem check_after_fix (hconfig : config.WellFormed) (hfs : fs.WellFormed)
    (hpatterns : config.patterns = defaultPatterns)
    (hexit : ((config.inMode .fix).run fs {}).exit = .ok 0) :
    let after := ((config.inMode .fix).run fs {}).files
    ∃ document trace, FixLeaves config fs after document trace ∧
      NextCheck config after document trace ((config.inMode .check).run after {}) := by
  intro after
  obtain ⟨document, trace, hleaves⟩ := fixLeaves_of_exit hconfig hfs hpatterns hexit
  have hshown := shown_of_exit hexit
  exact ⟨document, trace, hleaves, hleaves.nextCheck hshown.messagesDirectory hshown.sourceLocale⟩

end

section

open scoped Usual

/-- The key that is used keeps the check passing once the other one is erased. -/
theorem check_after_fix_halfUsed :
    let after := ((rooted.inMode .fix).run halfUsed {}).files
    ((rooted.inMode .fix).run halfUsed {}).exit = .ok 0 ∧
      ∃ document trace, FixLeaves rooted halfUsed after document trace ∧
        NextCheck rooted after document trace ((rooted.inMode .check).run after {}) ∧
        rooted.PassesClean trace ((rooted.inMode .check).run after {}) := by
  intro after
  have hexit : ((rooted.inMode .fix).run halfUsed {}).exit = .ok 0 := by decide +kernel
  obtain ⟨document, trace, hleaves, hnext⟩ :=
    check_after_fix wellFormed_rooted wellFormed_halfUsed rfl hexit
  refine ⟨hexit, document, trace, hleaves, hnext, hnext.passes.mpr ?_⟩
  by_cases hall : ∀ key ∈ document.keys, key ∈ trace.usedKeys
  · exact Or.inl hall
  · push Not at hall
    refine Or.inr ⟨?_, ?_, hnext.separates ?_⟩
    · obtain ⟨path, place, f, -, -, hleft⟩ := hleaves.pruned hall
      rw [show halfUsed.fault? place = none from rfl] at hleft
      cases hleft with
      | written hholds => exact hholds
    · have hused : (rooted.usages halfUsed).map (fun found => found.1.usedKeys.toList)
          = .ok [Text.ofString "k"] := by decide +kernel
      obtain ⟨notices, husages, -⟩ := hleaves.usages
      rw [husages] at hused
      have hkeys : trace.usedKeys.toList = [Text.ofString "k"] := Except.ok.inj hused
      refine ⟨"k", KeySet.mem_toList.mp ?_⟩
      rw [hkeys]
      exact List.mem_singleton_self _
    · have hloaded : (halfUsed.readMessages ((Path.ofAbsolute ["m"]).child "en.json")).map
          Document.plainNames = .ok true := by decide +kernel
      obtain ⟨path, hpath, hread⟩ :=
        (sourceHolds_iff wellFormed_rooted wellFormed_halfUsed).mp hleaves.source.1
      obtain rfl : (Path.ofAbsolute ["m"]).child "en.json" = path := Except.ok.inj hpath
      rw [hread] at hloaded
      exact Except.ok.inj hloaded

/-- A fix passes although it leaves a document without keys, and the next check fails. -/
theorem emptied_by_fix :
    let fix := (rooted.inMode .fix).run unsourced {}
    rooted.patterns = defaultPatterns ∧ fix.exit = .ok 0 ∧
      ((rooted.inMode .check).run fix.files {}).exit = .ok 1 :=
  ⟨rfl, by decide +kernel, by decide +kernel⟩

end

end CheckConfig

end MessageKeys
