import MessageKeys.Check.Report
import MessageKeys.Proofs.Files.Patterns
import MessageKeys.Proofs.Messages.Addresses
import MessageKeys.Proofs.Messages.Pruning
import MessageKeys.Proofs.Messages.Transparency
import MessageKeys.Proofs.Usage.Sessions

/-!
# The two sides of a check

A check compares the keys of its source document with the keys that its source files use.  Without
cached keys the first are those of the document that stands in the messages directory under the
name of the source locale (`definedKeys_eq_ok_iff`).  The second are the keys of the usages that
resolving the source files records (`usages_used`).
-/

namespace MessageKeys

/-! ## The name of the source document -/

theorem isDocumentName_documentName (code : Text) :
    isDocumentName (Locale.documentName code) = true :=
  List.isSuffixOf_iff_suffix.mpr ⟨code, rfl⟩

theorem slash_not_mem_of_fault? {code : Text} (h : Locale.fault? code = none) :
    PathName.slash ∉ code := by
  intro hmem
  have hcontains : code.contains PathName.slash = true := List.contains_iff_mem.mpr hmem
  unfold Locale.fault? at h
  rw [hcontains] at h
  split_ifs at h
  contradiction

/-- An accepted locale names a document by a single component. -/
theorem ofText_documentName {code : Text} (h : Locale.fault? code = none) :
    Path.ofText (Locale.documentName code) = ⟨.relative, [Locale.documentName code]⟩ := by
  have hslash : PathName.slash ∉ Locale.documentName code := by
    intro hmem
    rcases List.mem_append.mp hmem with hmem | hmem
    · exact slash_not_mem_of_fault? h hmem
    · exact absurd hmem (by decide)
  have hleading : PathName.leading (Locale.documentName code) = 0 := by
    unfold PathName.leading
    cases hname : Locale.documentName code with
    | nil => rfl
    | cons c rest =>
        rw [hname] at hslash
        rw [List.takeWhile_cons_of_neg (by simpa using Ne.symm (List.ne_of_not_mem_cons hslash))]
        rfl
  have hpart := (isPart_of_isDocumentName (isDocumentName_documentName code)).1
  unfold Path.ofText
  rw [hleading, Text.splitOn_of_not_mem hslash, List.filter_cons_of_pos hpart]
  rfl

namespace CheckConfig

/-- A configuration as it can be made: with an accepted locale and a directory that was read or is
the working directory. -/
structure WellFormed (config : CheckConfig) : Prop where
  locale : Locale.fault? config.sourceLocale = none
  directory : config.directory.Proper

theorem wellFormed_of_make {messagesDirectory sourceLocale mode : Text} {patterns : List Text}
    {directory : Path} (hdirectory : directory.Proper) {config : CheckConfig}
    (h : make messagesDirectory sourceLocale mode patterns directory = .ok config) :
    config.WellFormed := by
  unfold make at h
  split at h
  · contradiction
  · rename_i hlocale
    split_ifs at h
    split at h
    · obtain rfl := Except.ok.inj h
      exact ⟨hlocale, hdirectory⟩
    · contradiction

theorem proper_join {directory path : Path} (hdirectory : directory.Proper) (hpath : path.Proper) :
    (directory.join path).Proper := by
  unfold Path.join
  split
  · exact List.forall_mem_append.mpr ⟨hdirectory, hpath⟩
  · exact hpath

/-- The messages directory is given by plain components. -/
theorem plain_messagesRoot {config : CheckConfig} (hconfig : config.WellFormed) {fs : FileSystem}
    (hfs : fs.WellFormed) {root : AbsolutePath}
    (h : config.messagesRoot fs = .ok root) : Path.Plain root := by
  rw [FileSystem.eq_resolve_of_unlinked hfs.unlinked h]
  exact FileSystem.plain_resolve hfs.working
    (proper_join hconfig.directory (Path.proper_ofText config.messagesDirectory))

theorem proper_messagesRoot {config : CheckConfig} (hconfig : config.WellFormed) {fs : FileSystem}
    (hfs : fs.WellFormed) {root : AbsolutePath}
    (h : config.messagesRoot fs = .ok root) : (Path.ofAbsolute root).Proper :=
  fun part hpart => (plain_messagesRoot hconfig hfs h part hpart).1

theorem sourceDocument_eq {config : CheckConfig} (hconfig : config.WellFormed)
    (fs : FileSystem) : config.sourceDocument fs
      = (config.messagesRoot fs).map fun root =>
        (Path.ofAbsolute root).child config.documentName := by
  unfold sourceDocument documentName
  rw [ofText_documentName hconfig.locale]
  rfl

/-- The path of the source document has no links and no `..` left in it. -/
theorem resolve_sourceDocument {config : CheckConfig} (hconfig : config.WellFormed)
    {fs : FileSystem} (hfs : fs.WellFormed) {path : Path}
    (h : config.sourceDocument fs = .ok path) : Path.ofAbsolute (fs.resolve path) = path := by
  rw [sourceDocument_eq hconfig] at h
  cases hroot : config.messagesRoot fs with
  | error fault =>
      rw [hroot] at h
      contradiction
  | ok root =>
      rw [hroot] at h
      obtain rfl := Except.ok.inj h
      have hplain : Path.Plain (root ++ [config.documentName]) := by
        refine List.forall_mem_append.mpr ⟨plain_messagesRoot hconfig hfs hroot, ?_⟩
        intro component hcomponent
        rw [List.mem_singleton.mp hcomponent]
        exact isPart_of_isDocumentName (isDocumentName_documentName config.sourceLocale)
      rw [FileSystem.resolve_of_unlinked hfs.unlinked]
      exact congrArg Path.ofAbsolute (FileSystem.resolve_ofAbsolute hplain fs.workingDirectory)

/-! ## The defined keys -/

section

variable [Json.Limits]

/-- The source document, past any link, holds a document. -/
def SourceHolds (config : CheckConfig) (fs : FileSystem) (document : Document) : Prop :=
  ∃ path place, config.sourceDocument fs = .ok path ∧ fs.resolve? path = .ok place ∧
    fs.readMessages (Path.ofAbsolute place) = .ok document

theorem SourceHolds.unique {config : CheckConfig} {fs : FileSystem} {document other : Document}
    (h : config.SourceHolds fs document) (hother : config.SourceHolds fs other) :
    document = other := by
  obtain ⟨path, place, hpath, hplace, hread⟩ := h
  obtain ⟨path', place', hpath', hplace', hread'⟩ := hother
  obtain rfl := Except.ok.inj (hpath.symm.trans hpath')
  obtain rfl := Except.ok.inj (hplace.symm.trans hplace')
  exact Except.ok.inj (hread.symm.trans hread')

/-- Where there are no links, the source document is read by its own path. -/
theorem sourceHolds_iff {config : CheckConfig} (hconfig : config.WellFormed) {fs : FileSystem}
    (hfs : fs.WellFormed) {document : Document} :
    config.SourceHolds fs document ↔
      ∃ path, config.sourceDocument fs = .ok path ∧ fs.readMessages path = .ok document := by
  constructor
  · rintro ⟨path, place, hpath, hplace, hread⟩
    rw [FileSystem.eq_resolve hplace, resolve_sourceDocument hconfig hfs hpath] at hread
    exact ⟨path, hpath, hread⟩
  · rintro ⟨path, hpath, hread⟩
    cases hplace : fs.resolve? path with
    | error fault =>
        obtain ⟨other, hother⟩ := FileSystem.readKeys_of_resolve? hplace
        unfold FileSystem.readKeys at hother
        rw [hread] at hother
        contradiction
    | ok place =>
        refine ⟨path, place, hpath, hplace, ?_⟩
        rw [FileSystem.eq_resolve hplace, resolve_sourceDocument hconfig hfs hpath]
        exact hread

theorem get_empty_eq_ok_iff {fs : FileSystem} {path : Path} {keys : KeySet} :
    (({} : KeyCache).get fs path).1 = .ok keys ↔
      ∃ place, fs.resolve? path = .ok place ∧ fs.readKeys (Path.ofAbsolute place) = .ok keys := by
  unfold KeyCache.get
  cases fs.resolve? path with
  | error fault => simp
  | ok place =>
      dsimp only
      rw [← mapError_eq_ok_iff, KeyCache.kind_getAt_empty fs path place, mapError_eq_ok_iff]
      simp

/-- Without cached keys the defined keys are those of the source document. -/
theorem definedKeys_eq_ok_iff {config : CheckConfig} {fs : FileSystem} {defined : KeySet} :
    config.definedKeys fs {} = .ok defined ↔
      ∃ document, config.SourceHolds fs document ∧ document.keys = defined := by
  unfold definedKeys SourceHolds
  cases config.sourceDocument fs with
  | error fault => simp
  | ok path =>
      dsimp only
      rw [get_empty_eq_ok_iff]
      unfold FileSystem.readKeys
      constructor
      · rintro ⟨place, hplace, hkeys⟩
        obtain ⟨document, hread, rfl⟩ := map_eq_ok_iff.mp hkeys
        exact ⟨document, ⟨path, place, rfl, hplace, hread⟩, rfl⟩
      · rintro ⟨document, ⟨other, place, hother, hplace, hread⟩, rfl⟩
        obtain rfl := Except.ok.inj hother
        exact ⟨place, hplace, map_eq_ok_iff.mpr ⟨document, hread, rfl⟩⟩

end

/-! ## The used keys -/

theorem coherent_ofFiles {fs : FileSystem} {root : Option Text} {paths : List Path}
    {project : Project} {notices : List Notice}
    (h : Project.ofFiles fs root paths = .ok (project, notices)) : project.Coherent := by
  unfold Project.ofFiles at h
  generalize hstart : (Project.empty root, ([] : List Notice)) = start at h
  have hcoherent : start.1.Coherent := by
    rw [← hstart]
    exact Project.coherent_empty root
  clear hstart
  induction paths generalizing start with
  | nil =>
      obtain rfl := Except.ok.inj h
      exact hcoherent
  | cons path rest ih =>
      rw [List.foldlM_cons] at h
      obtain ⟨before, told⟩ := start
      dsimp only at h
      cases hread : fs.readSource path with
      | ok unit =>
          rw [hread] at h
          exact ih _ h (hcoherent.add unit)
      | error e =>
          rw [hread] at h
          cases e with
          | path fault => contradiction
          | os e => exact ih _ h hcoherent

/-- The trace of a check is that of the project of its source files. -/
theorem of_usages {config : CheckConfig} {fs : FileSystem} {trace : Trace} {notices : List Notice}
    (h : config.usages fs = .ok (trace, notices)) : ∃ places root project,
      fs.discover config.patterns config.directory = .ok places ∧
        fs.resolve? config.directory = .ok root ∧
        Project.ofFiles fs (some (AbsolutePath.toText root)) (places.map Path.ofAbsolute)
          = .ok (project, notices) ∧
        trace = (Resolver.mk project {}).resolve {} := by
  unfold usages at h
  obtain ⟨places, hplaces, h⟩ := bind_eq_ok_iff.mp h
  obtain ⟨root, hroot, h⟩ := bind_eq_ok_iff.mp h
  obtain ⟨⟨project, told⟩, hproject, h⟩ := bind_eq_ok_iff.mp h
  obtain ⟨rfl, rfl⟩ := Prod.mk.inj (Except.ok.inj h)
  exact ⟨places, root, project, hplaces, mapError_eq_ok_iff.mp hroot,
    mapError_eq_ok_iff.mp hproject, rfl⟩

/-- The used keys of a check are the keys of the usages that it found. -/
theorem usages_used {config : CheckConfig} {fs : FileSystem} {trace : Trace} {notices : List Notice}
    (h : config.usages fs = .ok (trace, notices)) (key : Text) :
    key ∈ trace.usedKeys ↔ ∃ usage ∈ trace.usages, usage.key = some key := by
  obtain ⟨places, root, project, -, -, hproject, rfl⟩ := of_usages h
  have hcoherent := coherent_ofFiles hproject
  have haccounted : ((Resolver.mk project {}).resolve {}).Accounted project.units :=
    (Resolver.run_resolve ⟨project, {}⟩ {}).invariant
      (fun _ _ hstep => hstep.accounted hcoherent (List.Subset.refl _)) (.empty _)
  exact haccounted.used key

end CheckConfig

end MessageKeys
