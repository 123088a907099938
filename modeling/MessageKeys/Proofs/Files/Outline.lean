import MessageKeys.Project.Sources
import MessageKeys.Proofs.Files.WellFormed

/-!
# What does not depend on the content of files

The outline of a file system is what is left of it when every file is emptied: its directories and
the names of its files.  Where a path leads, what a directory lists and what a pattern matches can
be told from the outline (`locate_outline`, `list_outline`, `discover_outline`), so none of these
changes when a file is given new content (`outline_overwrite`).  What a path reads then changes only
if it leads to that file (`readFile_congr`).
-/

namespace MessageKeys

/-- A directory as it is, a file without all that is in it. -/
def Entry.outline : Entry → Entry
  | .directory given => .directory given
  | .file _ => .file ⟨[], 0, default⟩

theorem Entry.isDirectory_outline (entry : Entry) :
    entry.outline.isDirectory = entry.isDirectory := by
  cases entry <;> rfl

namespace FileSystem

/-- A file system in which every file is emptied. -/
def outline (fs : FileSystem) : FileSystem :=
  { fs with entries := fs.entries.map fun pair => (pair.1, pair.2.outline) }

/-! ## Looking up -/

theorem entry?_outline (fs : FileSystem) (place : AbsolutePath) :
    fs.outline.entry? place = (fs.entry? place).map Entry.outline := by
  unfold entry?
  split_ifs
  · rfl
  · exact Assoc.get?_map Entry.outline place fs.entries

theorem landing_outline (fs : FileSystem) (path : AbsolutePath) :
    fs.outline.landing path = fs.landing path :=
  rfl

theorem follow_outline (fs : FileSystem) (here : AbsolutePath) (entry : Entry)
    (components : List Text) :
    fs.outline.follow here entry.outline components
      = (fs.follow here entry components).map (Prod.map id Entry.outline) := by
  induction components generalizing here entry with
  | nil => rfl
  | cons component rest ih =>
      cases entry with
      | file f => rfl
      | directory given =>
          rw [follow.eq_def, follow.eq_def fs]
          dsimp only [Entry.outline]
          split_ifs
          · exact ih here (.directory given)
          · rw [← ih here.dropLast, entry?_outline]
            cases fs.entry? here.dropLast <;> rfl
          · rfl
          · rw [landing_outline, entry?_outline]
            cases fs.entry? (fs.landing (here ++ [PathName.stored component])) with
            | none => rfl
            | some found => exact ih _ found

theorem locate_outline (fs : FileSystem) (path : Path) :
    fs.outline.locate path = (fs.locate path).map (Prod.map id Entry.outline) := by
  unfold locate walk
  cases usable path with
  | error e => rfl
  | ok u =>
      dsimp only
      have hfollow := follow_outline fs [] (.directory none) (fs.fromRoot path)
      rw [show fs.outline.fromRoot path = fs.fromRoot path from rfl]
      rw [show (Entry.directory none).outline = .directory none from rfl] at hfollow
      rw [hfollow]
      cases fs.follow [] (.directory none) (fs.fromRoot path) <;> rfl

theorem leadsTo_outline (fs : FileSystem) {kind : Entry → Bool}
    (hkind : ∀ entry : Entry, kind entry.outline = kind entry) (path : Path) :
    fs.outline.leadsTo kind path = fs.leadsTo kind path := by
  unfold leadsTo
  rw [locate_outline]
  cases fs.locate path with
  | error e => rfl
  | ok found => exact congrArg Except.ok (hkind found.2)

theorem isDirectory_outline (fs : FileSystem) (path : Path) :
    fs.outline.isDirectory path = fs.isDirectory path :=
  fs.leadsTo_outline Entry.isDirectory_outline path

theorem isFile_outline (fs : FileSystem) (path : Path) :
    fs.outline.isFile path = fs.isFile path :=
  fs.leadsTo_outline (fun entry => congrArg not entry.isDirectory_outline) path

theorem list_outline (fs : FileSystem) (directory : AbsolutePath) :
    fs.outline.list directory = (fs.list directory).map (Prod.map id Entry.outline) := by
  unfold list
  rw [List.map_append]
  congr 1
  · unfold outline
    rw [List.filterMap_map, List.map_filterMap]
    refine List.filterMap_congr fun pair _ => ?_
    cases h : nameIn? directory pair.1 <;> simp [h]
  · rw [List.map_filterMap]
    refine List.filterMap_congr fun pair _ => ?_
    dsimp only
    rw [entry?_outline]
    cases nameIn? directory pair.1 with
    | none => rfl
    | some name => cases fs.entry? pair.2 <;> rfl

end FileSystem

/-! ## Searching -/

namespace Wildcard

theorem openEntries_outline (fs : FileSystem) (directoriesOnly : Bool) (directory : AbsolutePath) :
    openEntries fs.outline directoriesOnly directory
      = openEntries fs directoriesOnly directory := by
  unfold openEntries FileSystem.outline
  rw [List.filterMap_map]
  refine List.filterMap_congr fun pair _ => ?_
  simp [Entry.isDirectory_outline]

theorem openBelow_outline (fs : FileSystem) (directoriesOnly : Bool) (rounds : ℕ)
    (directory : AbsolutePath) :
    openBelow fs.outline directoriesOnly rounds directory
      = openBelow fs directoriesOnly rounds directory := by
  induction rounds generalizing directory with
  | zero => exact openEntries_outline fs directoriesOnly directory
  | succ rounds ih =>
      rw [openBelow, openBelow, openEntries_outline]
      congr 1
      refine List.flatMap_congr fun pair _ => ?_
      dsimp only
      rw [FileSystem.entry?_outline, ih]
      cases openSteps? directory pair.1 with
      | none => rfl
      | some steps =>
          cases fs.entry? pair.2 with
          | none => rfl
          | some entry => cases entry <;> rfl

theorem extend_outline (fs : FileSystem) (component : Text) (last : Bool) (path : Path) :
    extend fs.outline component last path = extend fs component last path := by
  unfold extend
  simp only [FileSystem.locate_outline, FileSystem.list_outline, openBelow_outline]
  split_ifs
  · cases fs.locate path with
    | error e => rfl
    | ok found => rcases found with ⟨place, _ | _⟩ <;> rfl
  · cases fs.locate path with
    | error e => rfl
    | ok found =>
        rcases found with ⟨place, given | f⟩
        · dsimp only [Except.map, Prod.map, Entry.outline]
          rw [List.filterMap_map]
          refine List.filterMap_congr fun pair _ => ?_
          simp [Entry.isDirectory_outline]
        · rfl
  · cases fs.locate { path with parts := path.parts ++ [component] } with
    | error e => rfl
    | ok found =>
        dsimp only [Except.map, Prod.map]
        rw [Entry.isDirectory_outline]

theorem extendAll_outline (fs : FileSystem) (components : List Text) (paths : List Path) :
    extendAll fs.outline components paths = extendAll fs components paths := by
  induction components generalizing paths with
  | nil => rfl
  | cons component rest ih =>
      have hextend : extend fs.outline component rest.isEmpty = extend fs component rest.isEmpty :=
        funext fun path => extend_outline fs component rest.isEmpty path
      rw [extendAll, extendAll, ih, hextend]

theorem expand_outline (fs : FileSystem) (directory : Path) (pattern : Text) :
    expand fs.outline directory pattern = expand fs directory pattern := by
  unfold expand
  simp only [FileSystem.locate_outline, extendAll_outline]
  split_ifs
  · generalize fs.locate _ = found
    cases found <;> rfl
  · rfl
  · rfl

end Wildcard

namespace FileSystem

theorem matching_outline (fs : FileSystem) (directory : Path) (pattern : Text) :
    fs.outline.matching directory pattern = fs.matching directory pattern := by
  unfold matching
  rw [Wildcard.expand_outline]
  simp only [isFile_outline]
  rfl

/-- Which files patterns match can be told from the outline. -/
theorem discover_outline (fs : FileSystem) (patterns : List Text) (directory : Path) :
    fs.outline.discover patterns directory = fs.discover patterns directory := by
  unfold discover
  rw [funext (matching_outline fs directory)]

/-! ## Changing files -/

/-- Giving a file new content keeps the outline. -/
theorem outline_overwrite {fs : FileSystem} {place : AbsolutePath} {f : File}
    (hf : fs.entry? place = some (.file f)) (content : Bytes) :
    (fs.overwrite place content).outline = fs.outline := by
  have hget := hf
  rw [entry?_of_ne_nil fs (ne_nil_of_entry?_file hf)] at hget
  have hentries := Assoc.map_insert (f := Entry.outline) hget
    (rfl : (Entry.file ⟨content, f.modified + 1, default⟩).outline = (Entry.file f).outline)
  rw [overwrite_eq hf]
  unfold outline
  dsimp only
  rw [hentries]

theorem workingDirectory_congr {before after : FileSystem}
    (houtline : after.outline = before.outline) :
    after.workingDirectory = before.workingDirectory := by
  have hworking := congrArg workingDirectory houtline
  exact hworking

theorem resolve_congr {before after : FileSystem} (houtline : after.outline = before.outline)
    (path : Path) : after.resolve path = before.resolve path := by
  have hresolve : after.outline.resolve path = before.outline.resolve path := by rw [houtline]
  exact hresolve

theorem resolve?_congr {before after : FileSystem} (houtline : after.outline = before.outline)
    (path : Path) : after.resolve? path = before.resolve? path := by
  unfold resolve?
  rw [resolve_congr houtline]

theorem fault?_congr {before after : FileSystem} (houtline : after.outline = before.outline)
    (place : AbsolutePath) : after.fault? place = before.fault? place := by
  have hfaults := congrArg faults houtline
  exact congrArg (Assoc.get? place) hfaults

theorem entry?_file_of_outline {before after : FileSystem}
    (houtline : after.outline = before.outline)
    {place : AbsolutePath} {f : File} (hf : before.entry? place = some (.file f)) :
    ∃ g, after.entry? place = some (.file g) := by
  have hentry := after.entry?_outline place
  rw [houtline, entry?_outline, hf] at hentry
  cases hafter : after.entry? place with
  | none =>
      rw [hafter] at hentry
      contradiction
  | some entry =>
      rw [hafter] at hentry
      cases entry with
      | directory given => cases Option.some.inj hentry
      | file g => exact ⟨g, rfl⟩

theorem names_outline (fs : FileSystem) :
    Assoc.names fs.outline.entries = Assoc.names fs.entries := by
  unfold outline Assoc.names
  rw [List.map_map]
  rfl

/-- Whether a file system is well-formed can be told from the outline. -/
theorem WellFormed.of_outline {before after : FileSystem}
    (houtline : after.outline = before.outline)
    (h : before.WellFormed) : after.WellFormed := by
  have hnames : Assoc.names after.entries = Assoc.names before.entries := by
    rw [← names_outline, houtline, names_outline]
  have hlinks := congrArg links houtline
  refine ⟨Eq.trans hlinks h.unlinked, ?_, ?_, ?_⟩
  · rw [hnames]
    exact h.distinct
  · rw [hnames]
    exact h.keepable
  · rw [workingDirectory_congr houtline]
    exact h.working

/-- A path that leads to a file leads to what stands in its place, if the outline is the same. -/
theorem locate_file_of_outline {before after : FileSystem}
    (houtline : after.outline = before.outline) {path : Path} {place : AbsolutePath} {f g : File}
    (h : before.locate path = .ok (place, .file f)) (hg : after.entry? place = some (.file g)) :
    after.locate path = .ok (place, .file g) := by
  have hlocate := after.locate_outline path
  rw [houtline, locate_outline, h] at hlocate
  cases hafter : after.locate path with
  | error e =>
      rw [hafter] at hlocate
      contradiction
  | ok found =>
      obtain ⟨spot, entry⟩ := found
      rw [hafter] at hlocate
      obtain ⟨hspot, hentry⟩ := Prod.mk.inj (Except.ok.inj hlocate)
      obtain rfl : place = spot := hspot
      cases entry with
      | directory given => contradiction
      | file new =>
          have hnew := entry?_of_locate hafter
          rw [hg] at hnew
          rw [Option.some.inj hnew]

theorem locate_congr {before after : FileSystem} (houtline : after.outline = before.outline)
    {path : Path} (hentry : ∀ place f, before.locate path = .ok (place, .file f) →
      after.entry? place = before.entry? place) : after.locate path = before.locate path := by
  have hlocate : (after.locate path).map (Prod.map id Entry.outline)
      = (before.locate path).map (Prod.map id Entry.outline) := by
    rw [← locate_outline, ← locate_outline, houtline]
  cases hbefore : before.locate path with
  | error e =>
      rw [hbefore] at hlocate
      cases hafter : after.locate path with
      | error e' =>
          rw [hafter] at hlocate
          rw [Except.error.inj hlocate]
      | ok found =>
          rw [hafter] at hlocate
          contradiction
  | ok found =>
      obtain ⟨place, entry⟩ := found
      cases entry with
      | file f =>
          refine locate_file_of_outline houtline hbefore ?_
          rw [hentry place f hbefore, entry?_of_locate hbefore]
      | directory given =>
          rw [hbefore] at hlocate
          cases hafter : after.locate path with
          | error e =>
              rw [hafter] at hlocate
              contradiction
          | ok found =>
              obtain ⟨spot, entry⟩ := found
              rw [hafter] at hlocate
              obtain ⟨hspot, houtline⟩ := Prod.mk.inj (Except.ok.inj hlocate)
              obtain rfl : spot = place := hspot
              cases entry with
              | directory given' => rw [Entry.directory.inj houtline]
              | file f => contradiction

/-- A path reads the same where the outline and what it leads to are the same. -/
theorem readFile_congr {before after : FileSystem} (houtline : after.outline = before.outline)
    {path : Path} (hentry : ∀ place f, before.locate path = .ok (place, .file f) →
      after.entry? place = before.entry? place) : after.readFile path = before.readFile path := by
  unfold readFile
  rw [locate_congr houtline hentry]

end FileSystem

end MessageKeys
