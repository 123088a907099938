import MessageKeys.Proofs.Check.Convergence

/-!
# Documents stay in the messages directory

An accepted locale names a document by a single component, so the path of the document resolves to
a name right in the resolved messages directory, and two locales to two names (`Confined`).

Whether the document is among those of the directory depends on how the directory is spelled.  The
documents are looked up by the path as it is written, and a path that leads through a directory that
is not there leads nowhere, even if resolving it takes that directory back.  Besides, each document
is asked for by its whole path, and one that is too long leaves no answer for any (`lists_iff`).

A fix looks the documents up by the resolved path.  It writes the source document again exactly if
all that it finds can be shown, the documents can be listed, none of them up to the source document
ends the run, the names of those before it can be shown, and its own file can be written
(`rewritten_fix_iff`).
-/

namespace MessageKeys

/-! ## The path of a document -/

theorem Path.resolve_child (directory : Path) {name : Text} (hup : name ≠ PathName.up)
    (workingDirectory : AbsolutePath) :
    (directory.child name).resolve workingDirectory =
      directory.resolve workingDirectory ++ [name] := by
  have hlast : ∀ start : AbsolutePath, (directory.parts ++ [name]).foldl descend start =
      directory.parts.foldl descend start ++ [name] := by
    intro start
    rw [List.foldl_append, List.foldl_cons, List.foldl_nil, descend, if_neg hup]
  unfold resolve child
  cases directory.anchor with
  | relative => exact hlast workingDirectory
  | root => exact hlast []
  | doubleRoot => exact hlast []

theorem Path.name_child (directory : Path) (name : Text) : (directory.child name).name = name := by
  simp [Path.name, child]

theorem Path.child_inj {directory : Path} {name other : Text} :
    directory.child name = directory.child other ↔ name = other := by
  simp [child]

namespace Locale

theorem documentPath_eq_ok_iff {directory path : Path} {code : Text} :
    documentPath directory code = .ok path ↔
      fault? code = none ∧ path = directory.child (documentName code) := by
  unfold documentPath
  cases hfault : fault? code with
  | some fault => simp
  | none =>
      rw [ofText_documentName hfault]
      simp [Path.join, Path.child, eq_comm]

/-- The path of a document does not leave the messages directory, in which the locale has its own
place. -/
structure Confined (directory : Path) (code : Text) (path : Path) : Prop where
  resolve_eq : ∀ workingDirectory, path.resolve workingDirectory =
    directory.resolve workingDirectory ++ [documentName code]
  parent_eq : ∀ workingDirectory, (path.resolve workingDirectory).dropLast =
    directory.resolve workingDirectory
  apart : ∀ other otherPath, other ≠ code → documentPath directory other = .ok otherPath →
    otherPath ≠ path ∧
      ∀ workingDirectory, otherPath.resolve workingDirectory ≠ path.resolve workingDirectory

theorem documentName_inj {code other : Text} :
    documentName code = documentName other ↔ code = other :=
  List.append_left_inj _

theorem documentName_ne_up (code : Text) : documentName code ≠ PathName.up :=
  (isPart_of_isDocumentName (isDocumentName_documentName code)).2

theorem confined_of_documentPath {directory path : Path} {code : Text}
    (h : documentPath directory code = .ok path) : Confined directory code path := by
  obtain ⟨-, rfl⟩ := documentPath_eq_ok_iff.mp h
  have hresolve (other : Text) := directory.resolve_child (documentName_ne_up other)
  refine ⟨hresolve code, fun workingDirectory => ?_, fun other otherPath hne hother => ?_⟩
  · rw [hresolve, List.dropLast_concat]
  · obtain ⟨-, rfl⟩ := documentPath_eq_ok_iff.mp hother
    refine ⟨fun heq => ?_, fun workingDirectory heq => ?_⟩
    · exact hne (documentName_inj.mp (Path.child_inj.mp heq))
    · rw [hresolve, hresolve] at heq
      exact hne (documentName_inj.mp (by simpa using heq))

end Locale

/-! ## Listed documents -/

namespace FileSystem

/-- The documents of a directory can be listed, and the one with the name is among them. -/
def Lists (fs : FileSystem) (directory : Path) (name : Text) : Prop :=
  ∃ paths, fs.documents? directory = .ok (some paths) ∧ directory.child name ∈ paths

/-- No name of a document at the place makes the path of the directory too long. -/
def InReach (fs : FileSystem) (directory : Path) (place : AbsolutePath) : Prop :=
  ∀ name ∈ fs.namesIn place, isDocumentName name = true →
    isOverlong (directory.child name) = false

/-- Where a path leads if it leads anywhere. -/
def placeOf (fs : FileSystem) (path : Path) : AbsolutePath :=
  (path.resolve fs.workingDirectory).map PathName.stored

variable {fs : FileSystem} {directory : Path} {name : Text} {f : File}

theorem placeOf_child (hup : name ≠ PathName.up) :
    fs.placeOf (directory.child name) = fs.placeOf directory ++ [PathName.stored name] := by
  unfold placeOf
  rw [directory.resolve_child hup, List.map_append, List.map_singleton]

/-- A file with the name of a document in the resolved directory is listed exactly if the path of
the directory leads there and no document is out of reach. -/
theorem lists_iff (hfs : fs.WellFormed) (hproper : directory.Proper)
    (hname : isDocumentName name = true)
    (hf : fs.entry? (fs.placeOf directory ++ [name]) = some (.file f)) :
    fs.Lists directory name ↔
      (∃ given, fs.locate directory = .ok (fs.placeOf directory, .directory given)) ∧
        fs.InReach directory (fs.placeOf directory) := by
  have hlisted : name ∈ fs.documentNames (fs.placeOf directory) :=
    (mem_documentNames hfs).mpr ⟨hname, f, hf⟩
  constructor
  · rintro ⟨paths, hpaths, -⟩
    obtain ⟨place, given, hlocate, hreach, -⟩ := documents?_eq_some_iff.mp hpaths
    obtain rfl : place = fs.placeOf directory :=
      place_of_locate hfs.unlinked hfs.working hproper hlocate
    exact ⟨⟨given, hlocate⟩, hreach⟩
  · rintro ⟨⟨given, hlocate⟩, hreach⟩
    exact ⟨_, documents?_eq_some_iff.mpr ⟨_, given, hlocate, hreach, rfl⟩,
      List.mem_map_of_mem hlisted⟩

example : CheckConfig.unsourced.documents? (Path.ofText "nowhere/../m") = .ok none := by
  decide +kernel

/-- A path of a document that leads to a file leads through its directory. -/
theorem locate_directory_of_child (hfs : fs.WellFormed) (hproper : directory.Proper)
    (hname : isDocumentName name = true) {spot : AbsolutePath}
    (h : fs.locate (directory.child name) = .ok (spot, .file f)) :
    spot = fs.placeOf (directory.child name) ∧
      ∃ given, fs.locate directory = .ok (fs.placeOf directory, .directory given) := by
  obtain ⟨hpart, hup⟩ := isPart_of_isDocumentName hname
  obtain ⟨place, given, -, hlocate⟩ := locate_of_child hpart hup h
  have hplace : place = fs.placeOf directory :=
    place_of_locate hfs.unlinked hfs.working hproper hlocate
  exact ⟨place_of_locate hfs.unlinked hfs.working (Path.proper_child hproper hpart) h, given,
    hplace ▸ hlocate⟩

/-- Where a document is found if its directory is spelled in some way, and when it is listed
there. -/
structure ListsFound (fs : FileSystem) (directory : Path) (name : Text) (path : Path) : Prop where
  /-- A file in the resolved directory is listed exactly if the path of the directory leads there
  and no document is out of reach. -/
  placed : ∀ f, fs.entry? (fs.placeOf path) = some (.file f) →
    (fs.Lists directory (PathName.stored name) ↔
      (∃ given, fs.locate directory = .ok (fs.placeOf directory, .directory given)) ∧
        fs.InReach directory (fs.placeOf directory))
  /-- A file that the path of the document leads to stands in the resolved directory, and only a
  document out of reach keeps it from being listed. -/
  found : ∀ spot f, fs.locate path = .ok (spot, .file f) → spot = fs.placeOf path ∧
    (fs.Lists directory (PathName.stored name) ↔ fs.InReach directory (fs.placeOf directory))

theorem listsFound_child (hfs : fs.WellFormed) (hproper : directory.Proper)
    (hname : isDocumentName name = true) :
    fs.ListsFound directory name (directory.child name) := by
  have hplaced : ∀ f, fs.entry? (fs.placeOf (directory.child name)) = some (.file f) →
      (fs.Lists directory (PathName.stored name) ↔
        (∃ given, fs.locate directory = .ok (fs.placeOf directory, .directory given)) ∧
          fs.InReach directory (fs.placeOf directory)) := by
    intro f hf
    rw [placeOf_child (isPart_of_isDocumentName hname).2] at hf
    exact lists_iff hfs hproper (isDocumentName_stored hname) hf
  refine ⟨hplaced, fun spot f hlocate => ?_⟩
  obtain ⟨rfl, hdirectory⟩ := locate_directory_of_child hfs hproper hname hlocate
  exact ⟨rfl, (hplaced f (entry?_of_locate hlocate)).trans (and_iff_right hdirectory)⟩

/-! ## Fixing the source document -/

section

variable [Json.Limits]

/-- The document at a place is written again, without the keys. -/
def RewrittenAt (before after : FileSystem) (place : AbsolutePath) (keys : List Text) : Prop :=
  ∃ f document bytes, before.entry? place = some (.file f) ∧
    (∀ path, Document.decode path f.content = .ok document) ∧
    Utf8.encode? (document.eraseKeys keys).1.render = some bytes ∧
    after.entry? place = some (.file ⟨bytes, f.modified + 1, default⟩)

/-- Nothing keeps a run of pruning from the document with the name, and its file can be written. -/
structure Unhindered [Console] (fs : FileSystem) (directory : Path) (place : AbsolutePath)
    (keys : List Text) (name : Text) : Prop where
  inReach : fs.InReach directory place
  earlier : ∀ other < name, isDocumentName other = true → ∀ g,
    fs.entry? (place ++ [other]) = some (.file g) →
      ¬EndsPruning keys (fs.fault? (place ++ [other])) g.content ∧ other.isShown = true
  own : ∀ g, fs.entry? (place ++ [name]) = some (.file g) →
    ¬EndsPruning keys (fs.fault? (place ++ [name])) g.content
  opened : ∀ reason, fs.fault? (place ++ [name]) ≠ some (.refused reason)
  whole : ∀ g document bytes, fs.entry? (place ++ [name]) = some (.file g) →
    (∀ path, Document.decode path g.content = .ok document) →
    Utf8.encode? (document.eraseKeys keys).1.render = some bytes →
    ∀ kept reason, fs.fault? (place ++ [name]) = some (.cut kept reason) → bytes.length ≤ kept

/-- A file that is as it was has not been written. -/
theorem not_rewrittenAt_of_same {before after : FileSystem} {place : AbsolutePath}
    {keys : List Text}
    (hf : before.entry? place = some (.file f)) (hafter : after.entry? place = some (.file f)) :
    ¬RewrittenAt before after place keys := by
  rintro ⟨g, document, bytes, hg, -, -, hwritten⟩
  obtain rfl := Entry.file.inj (Option.some.inj (hf.symm.trans hg))
  have hsame := Entry.file.inj (Option.some.inj (hafter.symm.trans hwritten))
  have hmodified : f.modified = f.modified + 1 := congrArg File.modified hsame
  omega

/-- A document is written again by the verdict on it exactly if that does not stop the run, the file
can be opened, and all bytes get there. -/
theorem rewrittenAt_verdict_iff {before after : FileSystem} {place : AbsolutePath}
    {keys : List Text} {path : Path} {fault : Option WriteFault} {v : Pruning.Verdict}
    (hf : before.entry? place = some (.file f)) {document : Document}
    (hdecode : ∀ path, Document.decode path f.content = .ok document)
    (hjudged : Pruning.Judged keys path f.content fault v)
    (hafter : after.entry? place = some (.file (v.file f))) :
    RewrittenAt before after place keys ↔ v.stopped = none ∧
      (∀ reason, fault ≠ some (.refused reason)) ∧
      ∀ bytes, Utf8.encode? (document.eraseKeys keys).1.render = some bytes →
        ∀ kept reason, fault = some (.cut kept reason) → bytes.length ≤ kept := by
  -- what would have been written is known from the content
  have hwritten : RewrittenAt before after place keys → ∃ bytes,
      Utf8.encode? (document.eraseKeys keys).1.render = some bytes ∧
        v.file f = ⟨bytes, f.modified + 1, default⟩ := by
    rintro ⟨g, other, bytes, hg, hother, hbytes, hentry⟩
    obtain rfl := Entry.file.inj (Option.some.inj (hf.symm.trans hg))
    obtain rfl := Except.ok.inj ((hdecode []).symm.trans (hother []))
    exact ⟨bytes, hbytes, Entry.file.inj (Option.some.inj (hafter.symm.trans hentry))⟩
  cases hjudged with
  | unusable hfailed | unloadable hfailed =>
      rw [hdecode] at hfailed
      contradiction
  | refused hother hdepth =>
      refine iff_of_false (not_rewrittenAt_of_same hf hafter) fun h => ?_
      have hstopped := h.1
      contradiction
  | denied hother hdepth =>
      exact iff_of_false (not_rewrittenAt_of_same hf hafter) fun h => h.2.1 _ rfl
  | unencodable hother hdepth hopened hsurrogate =>
      obtain rfl := Except.ok.inj ((hdecode _).symm.trans hother)
      refine iff_of_false (fun hrewritten => ?_) fun h => ?_
      · obtain ⟨bytes, hbytes, -⟩ := hwritten hrewritten
        rw [Document.encode?_render_eq_none_iff.mpr hsurrogate] at hbytes
        contradiction
      · have hstopped := h.1
        contradiction
  | @cut other bytes kept reason hother hdepth hbytes =>
      obtain rfl := Except.ok.inj ((hdecode _).symm.trans hother)
      constructor
      · intro hrewritten
        obtain ⟨found, hfound, hfile⟩ := hwritten hrewritten
        obtain rfl := Option.some.inj (hbytes.symm.trans hfound)
        refine ⟨rfl, nofun, fun other hother kept' reason' hcut => ?_⟩
        obtain rfl := Option.some.inj (hbytes.symm.trans hother)
        obtain ⟨rfl, -⟩ := WriteFault.cut.inj (Option.some.inj hcut)
        have hlength := congrArg (fun file : File => file.content.length) hfile
        dsimp only [Pruning.Verdict.file] at hlength
        rw [List.length_take] at hlength
        omega
      · rintro ⟨-, -, hwhole⟩
        refine ⟨f, document, bytes, hf, hdecode, hbytes, hafter.trans ?_⟩
        dsimp only [Pruning.Verdict.file]
        rw [List.take_of_length_le (hwhole bytes hbytes kept reason rfl)]
  | whole hother hdepth hbytes =>
      obtain rfl := Except.ok.inj ((hdecode _).symm.trans hother)
      exact iff_of_true ⟨f, document, _, hf, hdecode, hbytes, hafter⟩ ⟨rfl, nofun, nofun⟩

end

section

variable [Console] [Json.Limits] [Locale.Catalogue] {place : AbsolutePath} {given : Option Int}
  {keys : KeySet}

omit [Locale.Catalogue] in
/-- A run comes to a document exactly if none with a lesser name ends it or cannot be shown. -/
theorem mem_reached_isTaken_iff (hfs : fs.WellFormed) (keys : List Text) (directory : Path)
    (hname : name ∈ fs.documentNames place) :
    name ∈ Pruning.reached (Pruning.passes keys directory place fs · CheckConfig.isTaken)
        (fs.documentNames place) ↔
      ∀ other < name, isDocumentName other = true → ∀ g,
        fs.entry? (place ++ [other]) = some (.file g) →
          ¬EndsPruning keys (fs.fault? (place ++ [other])) g.content ∧ other.isShown = true := by
  rw [mem_reached_documentNames_iff hfs keys directory hname]
  refine forall₅_congr fun other _ _ g hg => and_congr_right fun hends => ?_
  have hjudged : Pruning.Judged keys (directory.child other) g.content
      (fs.fault? (place ++ [other])) (Pruning.verdictAt keys directory place fs other) :=
    Pruning.judged_verdictAt hg
  obtain ⟨outcome, houtcome, hpath⟩ :=
    hjudged.outcome?.1 (not_not.mp (mt hjudged.stopped_iff.mp hends))
  have hshown : CheckConfig.isTaken outcome = true ↔ other.isShown = true := by
    rw [CheckConfig.isTaken_iff, hpath, Path.name_child]
  rw [houtcome, ← hshown]
  exact ⟨fun h => h outcome rfl, fun h found hfound => Option.some.inj hfound ▸ h⟩

/-- Pruning writes a document again exactly if nothing keeps it from it. -/
theorem rewrittenAt_iff (hfs : fs.WellFormed)
    (hlocate : fs.locate directory = .ok (place, .directory given))
    (hname : isDocumentName name = true) (hf : fs.entry? (place ++ [name]) = some (.file f))
    {document : Document} (hdecode : ∀ path, Document.decode path f.content = .ok document) :
    RewrittenAt fs (fs.pruneWhile CheckConfig.isTaken directory keys).files (place ++ [name])
      keys.toList ↔ fs.Unhindered directory place keys.toList name := by
  have hlisted : name ∈ fs.documentNames place := (mem_documentNames hfs).mpr ⟨hname, f, hf⟩
  have hown : ∀ g, fs.entry? (place ++ [name]) = some (.file g) → g = f := fun g hg =>
    Entry.file.inj (Option.some.inj (hg.symm.trans hf))
  by_cases hreach : fs.InReach directory place
  · have hpaths := documents?_eq_some_iff.mpr ⟨place, given, hlocate, hreach, rfl⟩
    have hprunes := prunes_pruneWhile hfs hlocate hpaths CheckConfig.isTaken keys
    have hearlier := mem_reached_isTaken_iff hfs keys.toList directory hlisted
    by_cases hreached : name ∈ Pruning.reached
        (Pruning.passes keys.toList directory place fs · CheckConfig.isTaken)
          (fs.documentNames place)
    · have hjudged : Pruning.Judged keys.toList (directory.child name) f.content
          (fs.fault? (place ++ [name])) (Pruning.verdictAt keys.toList directory place fs name) :=
        Pruning.judged_verdictAt hf
      rw [rewrittenAt_verdict_iff hf hdecode hjudged (hprunes.file name hreached f hf)]
      have hgoesOn := not_congr hjudged.stopped_iff
      rw [not_not] at hgoesOn
      constructor
      · rintro ⟨hstopped, hopened, hwhole⟩
        refine ⟨hreach, hearlier.mp hreached, fun g hg => ?_, hopened,
          fun g other bytes hg hother => ?_⟩
        · rw [hown g hg]
          exact hgoesOn.mp hstopped
        · obtain rfl := hown g hg
          obtain rfl := Except.ok.inj ((hdecode []).symm.trans (hother []))
          exact hwhole bytes
      · intro h
        exact ⟨hgoesOn.mpr (h.own f hf), h.opened,
          fun bytes hbytes => h.whole f document bytes hf hdecode hbytes⟩
    · exact iff_of_false (not_rewrittenAt_of_same hf ((hprunes.kept hreached).trans hf))
        fun h => hreached (hearlier.mpr h.earlier)
  · -- a run that lists nothing writes nothing
    refine iff_of_false (not_rewrittenAt_of_same hf ?_) fun h => hreach h.inReach
    rw [files_pruneWhile_of_not_listed]
    · exact hf
    · rintro ⟨paths, hpaths⟩
      obtain ⟨other, given', hother, hreach', -⟩ := documents?_eq_some_iff.mp hpaths
      obtain rfl : place = other := (Prod.mk.inj (Except.ok.inj (hlocate.symm.trans hother))).1
      exact hreach hreach'

end

end FileSystem

namespace CheckConfig

section

variable [Console] [Json.Limits] [Locale.Catalogue] {config : CheckConfig} {fs : FileSystem}

/-- The run writes the source document again exactly if all that it finds can be shown and nothing
keeps pruning from the document. -/
def RewritesUnlessHindered (config : CheckConfig) (fs : FileSystem) (unused : KeySet) : Prop :=
  ∃ root path, config.messagesRoot fs = .ok root ∧
    config.sourceDocument fs = .ok path ∧
    Locale.documentPath (Path.ofAbsolute root) config.sourceLocale = .ok path ∧
    (FileSystem.RewrittenAt fs (config.run fs {}).files (fs.placeOf path) unused.toList ↔
      config.Shown fs ∧ fs.Unhindered (Path.ofAbsolute root) (fs.placeOf (Path.ofAbsolute root))
        unused.toList (PathName.stored config.documentName))

theorem rewritten_fix_iff (hconfig : config.WellFormed) (hfs : fs.WellFormed)
    (hmode : config.mode = .fix) {outcome : Reconciliation}
    (houtcome : config.outcome? fs = some outcome) (hunused : outcome.unused.isEmpty = false) :
    config.RewritesUnlessHindered fs outcome.unused := by
  obtain ⟨document, -, -, hsource, -⟩ := outcome?_eq_some_iff_source.mp houtcome
  obtain ⟨root, place, given, f, hroot, hlocate, hpath, hspot, hdecode⟩ :=
    hsource.located hconfig hfs
  have hname : isDocumentName config.documentName = true :=
    isDocumentName_documentName config.sourceLocale
  obtain rfl : place = fs.placeOf (Path.ofAbsolute root) := FileSystem.place_of_locate hfs.unlinked
    hfs.working (proper_messagesRoot hconfig hfs hroot) hlocate
  have hf := FileSystem.entry?_of_locate hspot
  refine ⟨root, _, hroot, hpath, Locale.documentPath_eq_ok_iff.mpr ⟨hconfig.locale, rfl⟩, ?_⟩
  rw [FileSystem.placeOf_child (isPart_of_isDocumentName hname).2]
  by_cases hshown : config.Shown fs
  · have hdirectory := FileSystem.isDirectory_of_locate hlocate
    have hremedy : config.remedy fs outcome.unused = config.fix fs outcome.unused := by
      unfold remedy
      rw [hunused, if_neg Bool.false_ne_true, hmode]
    have hfiles : (config.run fs {}).files
        = (fs.pruneWhile isTaken (Path.ofAbsolute root) outcome.unused).files :=
      calc (config.run fs {}).files
        _ = (config.conclusion fs).files := (run_of_shown hshown).1
        _ = (config.remedy fs outcome.unused).files := (conclusion_of_some houtcome).1
        _ = (config.fix fs outcome.unused).files := by rw [hremedy]
        _ = (fixAt fs root outcome.unused).files := (fix_of_directory hroot hdirectory _).1
        _ = (fs.pruneWhile isTaken (Path.ofAbsolute root) outcome.unused).files :=
          (fixAt_eq fs root outcome.unused).1
    rw [hfiles, and_iff_right hshown]
    exact FileSystem.rewrittenAt_iff hfs hlocate (isDocumentName_stored hname) hf hdecode
  · rw [(run_of_not_shown hshown).1]
    exact iff_of_false (FileSystem.not_rewrittenAt_of_same hf hf) fun h => hshown h.1

/-- The document of an accepted locale stays in the messages directory, however that is spelled, and
is listed there as far as the spelling leads there and the documents are in reach.  A fix that has
something to erase writes the source document again exactly if nothing keeps it from it. -/
theorem source_confined (hfs : fs.WellFormed) :
    (∀ text code path, Locale.documentPath (Path.ofText text) code = .ok path →
      Locale.Confined (Path.ofText text) code path ∧
        fs.ListsFound (Path.ofText text) (Locale.documentName code) path) ∧
    ∀ config outcome, WellFormed config → config.mode = .fix →
      config.outcome? fs = some outcome → outcome.unused.isEmpty = false →
      config.RewritesUnlessHindered fs outcome.unused := by
  refine ⟨fun text code path hpath => ?_, fun config outcome hconfig hmode houtcome hunused => ?_⟩
  · refine ⟨Locale.confined_of_documentPath hpath, ?_⟩
    obtain ⟨-, rfl⟩ := Locale.documentPath_eq_ok_iff.mp hpath
    exact FileSystem.listsFound_child hfs (Path.proper_ofText text)
      (isDocumentName_documentName code)
  · exact rewritten_fix_iff hconfig hfs hmode houtcome hunused

/-- For the check at the root the places are its directory and its document as they are named. -/
theorem RewritesUnlessHindered.rooted (hworking : fs.workingDirectory = [])
    (hroot : CheckConfig.rooted.messagesRoot fs = .ok ["m"]) {unused : KeySet}
    (h : (rooted.inMode .fix).RewritesUnlessHindered fs unused) :
    FileSystem.RewrittenAt fs ((CheckConfig.rooted.inMode .fix).run fs {}).files ["m", "en.json"]
        unused.toList ↔
      (CheckConfig.rooted.inMode .fix).Shown fs ∧
        fs.Unhindered (Path.ofAbsolute ["m"]) ["m"] unused.toList "en.json" := by
  obtain ⟨root, path, hother, hsource, -, hiff⟩ := h
  obtain rfl : (["m"] : AbsolutePath) = root := Except.ok.inj (hroot.symm.trans hother)
  have hpath := sourceDocument_eq (wellFormed_rooted.inMode .fix) fs
  rw [hsource, hother] at hpath
  obtain rfl : path = (Path.ofAbsolute ["m"]).child "en.json" := Except.ok.inj hpath
  have hspot : fs.placeOf ((Path.ofAbsolute ["m"]).child "en.json") = ["m", "en.json"] := by
    unfold FileSystem.placeOf
    rw [hworking]
    decide +kernel
  have hplace : fs.placeOf (Path.ofAbsolute ["m"]) = ["m"] := by
    unfold FileSystem.placeOf
    rw [hworking]
    decide +kernel
  have hname : PathName.stored (CheckConfig.rooted.inMode .fix).documentName = "en.json" := by
    decide +kernel
  rw [hspot, hplace, hname] at hiff
  exact hiff

end

section

open scoped Usual

theorem unhindered_halfUsed :
    halfUsed.Unhindered (Path.ofAbsolute ["m"]) ["m"] ["x"] "en.json" := by
  have hnames : halfUsed.documentNames ["m"] = ["en.json"] := by decide +kernel
  have hpaths : halfUsed.documents? (Path.ofAbsolute ["m"])
      = .ok (some [(Path.ofAbsolute ["m"]).child "en.json"]) := by decide +kernel
  have hroot : rooted.messagesRoot halfUsed = .ok ["m"] := rfl
  have hproper := proper_messagesRoot wellFormed_rooted wellFormed_halfUsed hroot
  have hplace : halfUsed.placeOf (Path.ofAbsolute ["m"]) = ["m"] := by decide +kernel
  obtain ⟨place, given, hlocate, hreach, -⟩ := FileSystem.documents?_eq_some_iff.mp hpaths
  obtain rfl : place = ["m"] := (FileSystem.place_of_locate wellFormed_halfUsed.unlinked
    wellFormed_halfUsed.working hproper hlocate).trans hplace
  refine ⟨hreach, fun other hless hother g hg => ?_, fun g hg => ?_, nofun,
    fun _ _ _ _ _ _ => nofun⟩
  · -- there is no other document
    have hmem := (FileSystem.mem_documentNames wellFormed_halfUsed).mpr ⟨hother, g, hg⟩
    rw [hnames] at hmem
    rw [List.mem_singleton.mp hmem] at hless
    exact absurd hless (List.lt_irrefl _)
  · have hpasses : Pruning.passes ["x"] (Path.ofAbsolute ["m"]) ["m"] halfUsed "en.json" isTaken
        = true := by decide +kernel
    exact ((Pruning.passes_iff hg).mp hpasses).1

/-- A directory that is spelled in a roundabout way lists its document, and a fix writes it
again. -/
theorem source_confined_halfUsed :
    let directory := Path.ofText "./m//../m"
    let config := rooted.inMode .fix
    Locale.documentPath directory "en" = .ok (directory.child "en.json") ∧
      Locale.Confined directory "en" (directory.child "en.json") ∧
      halfUsed.Lists directory "en.json" ∧
      halfUsed.InReach directory (halfUsed.placeOf directory) ∧
      ∃ outcome, config.outcome? halfUsed = some outcome ∧ outcome.unused.isEmpty = false ∧
        FileSystem.RewrittenAt halfUsed (config.run halfUsed {}).files ["m", "en.json"]
          outcome.unused.toList := by
  intro directory config
  have hpath : Locale.documentPath directory "en" = .ok (directory.child "en.json") := by
    decide +kernel
  obtain ⟨hdocuments, hruns⟩ := source_confined wellFormed_halfUsed
  obtain ⟨hconfined, hlists⟩ := hdocuments "./m//../m" "en" _ hpath
  have hlisted : halfUsed.Lists directory "en.json" :=
    ⟨[directory.child "en.json"], by decide +kernel, List.mem_singleton_self _⟩
  have hstored : PathName.stored (Locale.documentName "en") = "en.json" := by decide +kernel
  have hplace : halfUsed.placeOf (directory.child "en.json") = ["m", "en.json"] := by
    decide +kernel
  have hf : halfUsed.entry? (halfUsed.placeOf (directory.child "en.json"))
      = some (.file ⟨twoKeys, 0, default⟩) := by
    rw [hplace]
    rfl
  have hreach := ((hlists.placed _ hf).mp (hstored ▸ hlisted)).2
  refine ⟨hpath, hconfined, hlisted, hreach, ?_⟩
  have hunused : (config.outcome? halfUsed).map (fun outcome => outcome.unused.toList)
      = some [Text.ofString "x"] := by decide +kernel
  obtain ⟨outcome, houtcome, hkeys⟩ := Option.map_eq_some_iff.mp hunused
  have hnonempty : outcome.unused.isEmpty = false := by
    change outcome.unused.toList.isEmpty = false
    rw [hkeys]
    rfl
  have hrun := hruns config outcome (wellFormed_rooted.inMode .fix) rfl houtcome hnonempty
  refine ⟨outcome, houtcome, hnonempty, (hrun.rooted rfl rfl).mpr ⟨?_, ?_⟩⟩
  · have hexit : (config.run halfUsed {}).exit = .ok 0 := by decide +kernel
    exact shown_of_exit hexit
  · rw [hkeys]
    exact unhindered_halfUsed

/-- A document that cannot be decoded keeps a fix from the source document, although that is
listed. -/
theorem source_kept_beside_undecodable :
    let fs := FileSystem.twoDocuments [0xff] twoKeys
    let config := rooted.inMode .fix
    Locale.documentPath (Path.ofText "m") "en" = .ok ((Path.ofText "m").child "en.json") ∧
      fs.Lists (Path.ofText "m") "en.json" ∧
      ∃ outcome, config.outcome? fs = some outcome ∧ outcome.unused.isEmpty = false ∧
        ¬FileSystem.RewrittenAt fs (config.run fs {}).files ["m", "en.json"]
          outcome.unused.toList := by
  intro fs config
  have hlisted : fs.Lists (Path.ofText "m") "en.json" :=
    ⟨_, FileSystem.documents?_twoDocuments _ _, List.mem_cons_of_mem _ (List.mem_singleton_self _)⟩
  refine ⟨rfl, hlisted, ?_⟩
  have hunused : (config.outcome? fs).map (fun outcome => outcome.unused.isEmpty)
      = some false := by decide +kernel
  obtain ⟨outcome, houtcome, hnonempty⟩ := Option.map_eq_some_iff.mp hunused
  have hrun := rewritten_fix_iff (wellFormed_rooted.inMode .fix)
    (FileSystem.wellFormed_twoDocuments _ _) rfl houtcome hnonempty
  refine ⟨outcome, houtcome, hnonempty, fun hrewritten => ?_⟩
  have hless : Text.ofString "de.json" < Text.ofString "en.json" := by decide
  have hundecodable : Utf8.decode? [0xff] = none := by decide +kernel
  have hfirst : FileSystem.entry? (FileSystem.twoDocuments [0xff] twoKeys) (["m"] ++ ["de.json"])
      = some (.file ⟨[0xff], 0, default⟩) := rfl
  exact (((hrun.rooted rfl rfl).mp hrewritten).2.earlier _ hless (by decide) _ hfirst).1
    (.undecodable hundecodable)

end

end CheckConfig

end MessageKeys
