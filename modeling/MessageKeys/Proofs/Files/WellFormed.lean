import Mathlib.Data.List.Nodup
import MessageKeys.Proofs.Files.Walking
import MessageKeys.Proofs.Text.Pieces

/-!
# Well-formed file systems

A file system keeps every name in the form in which it shows it, and stores nothing under a name
that no path can spell; besides, links are left out of account here (`WellFormed`).  Then the path
of a name in a directory leads to what the directory lists under that name (`locate_child`).

Giving a file new content changes nothing else (`entry?_overwrite`), and whatever only replaces or
removes files keeps the directories where they are (`KeepsDirectories.locate`).
-/

namespace MessageKeys.FileSystem

/-- A name as a file system keeps it: in the form in which it shows it, spelled by some path, and
not too long. -/
structure Keepable (name : Text) : Prop where
  stored : PathName.stored name = name
  usable : ∀ c ∈ name, PathName.isUsable c = true
  short : isTooLong name = false

/-- Every name is kept once in its directory, none is a link, and the working directory is a plain
one. -/
structure WellFormed (fs : FileSystem) : Prop where
  unlinked : fs.links = []
  distinct : (Assoc.names fs.entries).Nodup
  keepable : ∀ path ∈ Assoc.names fs.entries, ∀ name ∈ path.getLast?, Keepable name
  working : Path.Plain fs.workingDirectory

/-- A component that can be looked up is stored under a name that is kept. -/
theorem Keepable.of_stored {component : Text}
    (husable : ∀ c ∈ component, PathName.isUsable c = true)
    (hshort : isTooLong component = false) : Keepable (PathName.stored component) := by
  have hbytes := PathName.bytes?_stored component
  refine ⟨PathName.stored_stored component, ?_, ?_⟩
  · rw [← PathName.usableBytes_ok_iff] at husable ⊢
    unfold PathName.usableBytes at husable ⊢
    rw [hbytes]
    exact husable
  · unfold isTooLong at hshort ⊢
    rw [hbytes]
    exact hshort

theorem bytes?_of_scalars {name : Text} (h : ∀ c ∈ name, c.isSurrogate = false) :
    PathName.bytes? name = some (name.flatMap Utf8.encodePoint) := by
  induction name with
  | nil => rfl
  | cons c rest ih =>
      rw [List.forall_mem_cons] at h
      rw [PathName.bytes?_cons, PathName.pointBytes?_of_scalar h.1, ih h.2]
      rfl

/-- A name without surrogates and zeros is kept as it is. -/
theorem Keepable.of_scalars {name : Text} (h : ∀ c ∈ name, c.isSurrogate = false ∧ c.val ≠ 0)
    (hlength : (name.flatMap Utf8.encodePoint).length ≤ nameLimit) : Keepable name := by
  have hbytes := bytes?_of_scalars fun c hc => (h c hc).1
  refine ⟨?_, fun c hc => ?_, ?_⟩
  · unfold PathName.stored PathName.ofBytes
    rw [hbytes]
    dsimp only
    clear hbytes hlength
    induction name with
    | nil => rfl
    | cons c rest ih =>
        rw [List.forall_mem_cons] at h
        rw [List.flatMap_cons, Utf8.chunks_encodePoint h.1.1, List.flatMap_cons, ih h.2]
        rfl
  · rw [PathName.isUsable, PathName.pointBytes?_of_scalar (h c hc).1]
    simpa using (h c hc).2
  · unfold isTooLong
    rw [hbytes]
    exact decide_eq_false (Nat.not_lt.mpr hlength)

/-- Distinct paths whose names are without surrogates and zeros make a file system. -/
theorem wellFormed_of_scalars {fs : FileSystem} (hlinks : fs.links = [])
    (hworking : fs.workingDirectory = []) (hdistinct : (Assoc.names fs.entries).Nodup)
    (hscalars : ∀ path ∈ Assoc.names fs.entries, ∀ name ∈ path.getLast?,
      (∀ c ∈ name, c.isSurrogate = false ∧ c.val ≠ 0) ∧
        (name.flatMap Utf8.encodePoint).length ≤ nameLimit) : fs.WellFormed := by
  refine ⟨hlinks, hdistinct, fun path hpath name hname => ?_, fun component hcomponent => ?_⟩
  · obtain ⟨hscalar, hlength⟩ := hscalars path hpath name hname
    exact Keepable.of_scalars hscalar hlength
  · rw [hworking] at hcomponent
    exact absurd hcomponent List.not_mem_nil

/-! ## Names in a directory -/

theorem entry?_of_ne_nil (fs : FileSystem) {place : AbsolutePath} (h : place ≠ []) :
    fs.entry? place = Assoc.get? place fs.entries := by
  unfold entry?
  rw [if_neg (by simpa using h)]

theorem entry?_eq_some_iff {fs : FileSystem} (hfs : fs.WellFormed) {place : AbsolutePath}
    (h : place ≠ []) {entry : Entry} :
    fs.entry? place = some entry ↔ (place, entry) ∈ fs.entries := by
  rw [fs.entry?_of_ne_nil h, Assoc.get?_eq_some_iff hfs.distinct]

theorem nameIn?_eq_some_iff {directory path : AbsolutePath} {name : Text} :
    nameIn? directory path = some name ↔ path = directory ++ [name] := by
  constructor
  · intro h
    unfold nameIn? at h
    split at h
    · rename_i last hlast
      split_ifs at h with hparent
      rw [← hparent, ← Option.some.inj h, List.dropLast_append_getLast? _ hlast]
    · contradiction
  · rintro rfl
    simp [nameIn?]

theorem list_of_unlinked {fs : FileSystem} (hlinks : fs.links = []) (directory : AbsolutePath) :
    fs.list directory = fs.entries.filterMap fun (path, entry) =>
      (nameIn? directory path).map fun name => (name, entry) := by
  unfold list
  rw [hlinks, List.filterMap_nil, List.append_nil]

theorem mem_list {fs : FileSystem} (hlinks : fs.links = []) {directory : AbsolutePath} {name : Text}
    {entry : Entry} :
    (name, entry) ∈ fs.list directory ↔ (directory ++ [name], entry) ∈ fs.entries := by
  rw [list_of_unlinked hlinks, List.mem_filterMap]
  constructor
  · rintro ⟨⟨path, found⟩, hmem, heq⟩
    obtain ⟨last, hlast, hpair⟩ := Option.map_eq_some_iff.mp heq
    obtain ⟨rfl, rfl⟩ := Prod.mk.inj hpair
    rw [← nameIn?_eq_some_iff.mp hlast]
    exact hmem
  · intro hmem
    exact ⟨_, hmem, by simp [nameIn?]⟩

theorem list_places_sublist (directory : AbsolutePath) (entries : List (AbsolutePath × Entry)) :
    ((entries.filterMap fun (path, entry) =>
      (nameIn? directory path).map fun name => (name, entry)).map
        fun pair => directory ++ [pair.1]).Sublist (Assoc.names entries) := by
  induction entries with
  | nil => exact List.Sublist.refl _
  | cons first rest ih =>
      obtain ⟨path, entry⟩ := first
      rw [List.filterMap_cons]
      dsimp only
      cases hname : nameIn? directory path with
      | none => exact ih.cons _
      | some name =>
          obtain rfl := nameIn?_eq_some_iff.mp hname
          exact ih.cons_cons _

theorem nodup_names_list {fs : FileSystem} (hfs : fs.WellFormed) (directory : AbsolutePath) :
    (Assoc.names (fs.list directory)).Nodup := by
  have hnodup := hfs.distinct.sublist (list_places_sublist directory fs.entries)
  rw [list_of_unlinked hfs.unlinked]
  unfold Assoc.names
  refine List.Nodup.of_map (fun name => directory ++ [name]) ?_
  rw [List.map_map]
  exact hnodup

theorem fromRoot_child (fs : FileSystem) (directory : Path) (name : Text) :
    fs.fromRoot (directory.child name) = fs.fromRoot directory ++ [name] := by
  obtain ⟨anchor, parts⟩ := directory
  cases anchor with
  | relative => exact (List.append_assoc _ _ _).symm
  | root => rfl
  | doubleRoot => rfl

theorem Keepable.of_entry? {fs : FileSystem} (hfs : fs.WellFormed) {place : AbsolutePath}
    {name : Text} {entry : Entry} (h : fs.entry? (place ++ [name]) = some entry) :
    Keepable name := by
  have hmem := (entry?_eq_some_iff hfs (by simp)).mp h
  exact hfs.keepable _ (List.mem_map_of_mem hmem) name (by simp)

/-- The path of a name in a directory leads to what the directory has under that name. -/
theorem locate_child {fs : FileSystem} (hfs : fs.WellFormed) {directory : Path}
    {place : AbsolutePath} {given : Option Int}
    (hdirectory : fs.locate directory = .ok (place, .directory given)) {name : Text} {entry : Entry}
    (hentry : fs.entry? (place ++ [name]) = some entry) (hpart : Path.isPart name = true)
    (hup : name ≠ PathName.up) (hlong : isOverlong (directory.child name) = false) :
    fs.locate (directory.child name) = .ok (place ++ [name], entry) := by
  have hname := Keepable.of_entry? hfs hentry
  have husable : usable (directory.child name) = .ok () := by
    refine usable_of_not_isOverlong hlong fun part hmem => ?_
    rcases List.mem_append.mp hmem with hmem | hmem
    · exact parts_usable_of_locate hdirectory part hmem
    · rw [List.mem_singleton.mp hmem]
      exact hname.usable
  have hwalk : fs.follow [] (.directory none) (fs.fromRoot directory)
      = .ok (place, .directory given) := (usable_of_locate hdirectory).2
  have hstep : fs.follow place (.directory given) [name] = .ok (place ++ [name], entry) := by
    have hlanding : fs.landing (place ++ [PathName.stored name]) = place ++ [name] := by
      rw [landing_of_unlinked hfs.unlinked, hname.stored]
    rw [follow_cons (not_skipped_of_isPart hpart) hup (ne_true_of_eq_false hname.short)
      (hlanding ▸ hentry), hlanding, follow]
  rw [locate_of_usable husable, walk, fromRoot_child, follow_append, hwalk]
  dsimp only
  rw [hstep]
  rfl

/-- The spelling of a name in a directory goes on from that of the directory, unless this is the
working directory, which is spelled as such only by itself. -/
theorem toText_child (directory : Path) {name : Text} (hname : name ≠ []) :
    directory.toText = PathName.here ∨
      ∃ rest, (directory.child name).toText = directory.toText ++ rest := by
  obtain ⟨anchor, parts⟩ := directory
  have hspelled : ∃ rest, Text.join [PathName.slash] (parts ++ [name]) =
      Text.join [PathName.slash] parts ++ rest ∧ rest ≠ [] := by
    rcases List.eq_nil_or_concat parts with rfl | ⟨front, last, rfl⟩
    · exact ⟨name, List.intercalate_singleton, hname⟩
    · refine ⟨[PathName.slash] ++ name, ?_, by simp⟩
      rw [Text.join_concat, List.concat_eq_append, Text.join_concat]
      simp
  obtain ⟨rest, hrest, hne⟩ := hspelled
  unfold Path.toText Path.child
  dsimp only
  split_ifs with hempty hlonger hlonger
  · exact Or.inl rfl
  · exact Or.inl rfl
  · rw [hrest] at hlonger
    simp [hne] at hlonger
  · refine Or.inr ⟨rest, ?_⟩
    rw [hrest, List.append_assoc]

theorem usable_eq_ok_iff {path : Path} :
    usable path = .ok () ↔ ∃ bytes, PathName.bytes? path.toText = some bytes ∧
      (0 : UInt8) ∉ bytes ∧ bytes.length < pathLimit := by
  unfold usable Path.usableBytes PathName.usableBytes
  cases PathName.bytes? path.toText with
  | none => simp
  | some bytes => by_cases hzero : (0 : UInt8) ∈ bytes <;> simp [hzero]

/-- The path of a directory can be looked up if that of a name in it can. -/
theorem usable_of_child {directory : Path} {name : Text} (hname : name ≠ [])
    (h : usable (directory.child name) = .ok ()) : usable directory = .ok () := by
  rcases toText_child directory hname with hhere | ⟨rest, hrest⟩
  · unfold usable Path.usableBytes
    rw [hhere]
    rfl
  · obtain ⟨bytes, hbytes, hzero, hlength⟩ := usable_eq_ok_iff.mp h
    rw [hrest, PathName.bytes?_append] at hbytes
    obtain ⟨first, hfirst, hbytes⟩ := Option.bind_eq_some_iff.mp hbytes
    obtain ⟨second, -, rfl⟩ := Option.map_eq_some_iff.mp hbytes
    rw [List.length_append] at hlength
    exact usable_eq_ok_iff.mpr ⟨first, hfirst, fun hmem => hzero (List.mem_append_left _ hmem),
      by omega⟩

/-- A file is found in a directory, under its name or where the name leads as a link. -/
theorem locate_of_child {fs : FileSystem} {directory : Path} {name : Text}
    (hpart : Path.isPart name = true) (hup : name ≠ PathName.up) {spot : AbsolutePath} {f : File}
    (h : fs.locate (directory.child name) = .ok (spot, .file f)) :
    ∃ place given, spot = fs.landing (place ++ [PathName.stored name]) ∧
      fs.locate directory = .ok (place, .directory given) := by
  obtain ⟨husable, hwalk⟩ := usable_of_locate h
  have hname : name ≠ [] := by
    rintro rfl
    contradiction
  rw [walk, fromRoot_child, follow_append] at hwalk
  split at hwalk
  · contradiction
  · rename_i place found hfollow
    cases found with
    | file g => contradiction
    | directory given =>
        refine ⟨place, given, ?_, ?_⟩
        · rw [follow.eq_def] at hwalk
          dsimp only at hwalk
          rw [if_neg (not_skipped_of_isPart hpart), if_neg hup] at hwalk
          split_ifs at hwalk
          split at hwalk
          · exact (Prod.mk.inj (Except.ok.inj hwalk)).1.symm
          · contradiction
        · rw [locate_of_usable (usable_of_child hname husable), walk, hfollow]
          rfl

/-! ## Changing files -/

/-- The directories of the first file system are where they were; what was a file may differ. -/
structure KeepsDirectories (fs after : FileSystem) : Prop where
  working : after.workingDirectory = fs.workingDirectory
  links : after.links = fs.links
  entry? : ∀ place, (∀ f, fs.entry? place ≠ some (.file f)) → after.entry? place = fs.entry? place

/-- There is no directory below a file. -/
theorem follow_file_ne_directory {fs : FileSystem} {here place : AbsolutePath} {f : File}
    {given : Option Int} (components : List Text) :
    fs.follow here (.file f) components ≠ .ok (place, .directory given) := by
  intro h
  cases components with
  | nil => cases (Prod.mk.inj (Except.ok.inj h)).2
  | cons component rest => contradiction

theorem KeepsDirectories.landing {fs after : FileSystem} (h : KeepsDirectories fs after)
    (path : AbsolutePath) : after.landing path = fs.landing path := by
  unfold FileSystem.landing
  rw [h.links]

theorem KeepsDirectories.follow {fs after : FileSystem} (h : KeepsDirectories fs after)
    {here place : AbsolutePath} {entry : Entry} {given : Option Int} {components : List Text}
    (hfollow : fs.follow here entry components = .ok (place, .directory given)) :
    after.follow here entry components = .ok (place, .directory given) := by
  induction components generalizing here entry with
  | nil => exact hfollow
  | cons component rest ih =>
      cases entry with
      | file f => contradiction
      | directory given =>
          rw [follow.eq_def] at hfollow ⊢
          dsimp only at hfollow ⊢
          split_ifs at hfollow ⊢
          · exact ih hfollow
          · have hparent : after.entry? here.dropLast = fs.entry? here.dropLast := by
              refine h.entry? _ fun f hf => ?_
              rw [hf] at hfollow
              exact follow_file_ne_directory _ hfollow
            rw [hparent]
            exact ih hfollow
          · have hchild : after.entry? (fs.landing (here ++ [PathName.stored component]))
                = fs.entry? (fs.landing (here ++ [PathName.stored component])) := by
              refine h.entry? _ fun f hf => ?_
              rw [hf] at hfollow
              exact follow_file_ne_directory _ hfollow
            rw [h.landing, hchild]
            split at hfollow
            · exact ih hfollow
            · contradiction

/-- A path that leads to a directory still does when only files changed. -/
theorem KeepsDirectories.locate {fs after : FileSystem} (h : KeepsDirectories fs after)
    {path : Path} {place : AbsolutePath} {given : Option Int}
    (hlocate : fs.locate path = .ok (place, .directory given)) :
    after.locate path = .ok (place, .directory given) := by
  obtain ⟨husable, hwalk⟩ := usable_of_locate hlocate
  have hroot : after.fromRoot path = fs.fromRoot path := by
    unfold fromRoot
    rw [h.working]
  rw [locate_of_usable husable, walk, hroot, h.follow hwalk]
  rfl

theorem ne_nil_of_entry?_file {fs : FileSystem} {place : AbsolutePath} {f : File}
    (h : fs.entry? place = some (.file f)) : place ≠ [] := by
  rintro rfl
  cases Option.some.inj h

/-- Put new content into a file that is there. -/
theorem overwrite_eq {fs : FileSystem} {place : AbsolutePath} {f : File}
    (hf : fs.entry? place = some (.file f)) (content : Bytes) :
    fs.overwrite place content = { fs with
      entries := Assoc.insert place (.file ⟨content, f.modified + 1, default⟩) fs.entries } := by
  unfold overwrite
  rw [hf]
  dsimp only
  unfold set
  rw [hf]
  rfl

theorem entry?_overwrite {fs : FileSystem} {place : AbsolutePath} {f : File}
    (hf : fs.entry? place = some (.file f)) (content : Bytes) (other : AbsolutePath) :
    FileSystem.entry? (fs.overwrite place content) other =
      if other = place then some (.file ⟨content, f.modified + 1, default⟩)
      else fs.entry? other := by
  have hne := ne_nil_of_entry?_file hf
  rw [overwrite_eq hf]
  by_cases hroot : other = []
  · subst hroot
    rw [if_neg (Ne.symm hne)]
    rfl
  · rw [entry?_of_ne_nil _ hroot, entry?_of_ne_nil _ hroot]
    by_cases heq : other = place
    · rw [if_pos heq, heq, Assoc.get?_insert_self]
    · rw [if_neg heq, Assoc.get?_insert_of_ne heq]

theorem WellFormed.overwrite {fs : FileSystem} (hfs : fs.WellFormed) {place : AbsolutePath}
    {f : File} (hf : fs.entry? place = some (.file f)) (content : Bytes) :
    (fs.overwrite place content).WellFormed := by
  have hnames : Assoc.names (fs.overwrite place content).entries = Assoc.names fs.entries := by
    have hmem := (entry?_eq_some_iff hfs (ne_nil_of_entry?_file hf)).mp hf
    rw [overwrite_eq hf, Assoc.names_insert, if_pos]
    exact List.mem_map_of_mem hmem
  refine ⟨?_, ?_, ?_, ?_⟩
  · rw [overwrite_eq hf]
    exact hfs.unlinked
  · rw [hnames]
    exact hfs.distinct
  · rw [hnames]
    exact hfs.keepable
  · rw [overwrite_eq hf]
    exact hfs.working

theorem KeepsDirectories.overwrite {fs : FileSystem} {place : AbsolutePath} {f : File}
    (hf : fs.entry? place = some (.file f)) (content : Bytes) :
    KeepsDirectories fs (fs.overwrite place content) := by
  refine ⟨?_, ?_, fun other hother => ?_⟩
  · rw [overwrite_eq hf]
  · rw [overwrite_eq hf]
  · rw [entry?_overwrite hf, if_neg]
    rintro rfl
    exact hother f hf

end MessageKeys.FileSystem
