import MessageKeys.Files.Snapshot
import MessageKeys.Proofs.Files.WellFormed

/-!
# Snapshots are well-formed

Every file system that a snapshot describes is well-formed (`wellFormed_fileSystem`).  There are no
links in it, and an entry is put under the stored form of a name that could be looked up
(`keepable_of_writable`).
-/

namespace MessageKeys

namespace FileSystem

theorem WellFormed.change {fs : FileSystem} (hfs : fs.WellFormed) (directory : AbsolutePath) :
    (fs.change directory).WellFormed := by
  unfold FileSystem.change
  split
  · rename_i given hget
    have hmem : directory ∈ Assoc.names fs.entries :=
      List.mem_map_of_mem (Assoc.mem_of_get? hget)
    have hnames : Assoc.names (Assoc.insert directory (Entry.directory none) fs.entries)
        = Assoc.names fs.entries := by
      rw [Assoc.names_insert, if_pos hmem]
    refine ⟨hfs.unlinked, ?_, ?_, hfs.working⟩
    · rw [hnames]
      exact hfs.distinct
    · rw [hnames]
      exact hfs.keepable
  · exact hfs

theorem WellFormed.insert {fs : FileSystem} (hfs : fs.WellFormed) {path : AbsolutePath}
    (hpath : ∀ name ∈ path.getLast?, Keepable name) (entry : Entry) :
    WellFormed { fs with entries := Assoc.insert path entry fs.entries } := by
  refine ⟨hfs.unlinked, Assoc.nodup_names_insert hfs.distinct, ?_, hfs.working⟩
  intro other hother
  rw [Assoc.names_insert] at hother
  split_ifs at hother
  · exact hfs.keepable other hother
  · rcases List.mem_append.mp hother with hold | hnew
    · exact hfs.keepable other hold
    · rw [List.mem_singleton.mp hnew]
      exact hpath

theorem WellFormed.set {fs : FileSystem} (hfs : fs.WellFormed) {path : AbsolutePath}
    (hpath : ∀ name ∈ path.getLast?, Keepable name) (entry : Entry) :
    (fs.set path entry).WellFormed := by
  unfold FileSystem.set
  dsimp only
  split_ifs
  · exact hfs.insert hpath entry
  · exact (hfs.change path.dropLast).insert hpath entry

theorem workingDirectory_set (fs : FileSystem) (path : AbsolutePath) (entry : Entry) :
    (fs.set path entry).workingDirectory = fs.workingDirectory := by
  unfold FileSystem.set FileSystem.change
  dsimp only
  split_ifs
  · rfl
  · split <;> rfl

/-! ## Making directories -/

/-- Components that may be handed to a file system. -/
def Spellable (components : List Text) : Prop :=
  ∀ component ∈ components, ∀ c ∈ component, PathName.isUsable c = true

theorem Keepable.of_getLast?_concat (here : AbsolutePath) {component : Text}
    (husable : ∀ c ∈ component, PathName.isUsable c = true)
    (hshort : ¬isTooLong component = true) :
    ∀ name ∈ (here ++ [PathName.stored component]).getLast?, Keepable name := by
  intro name hname
  rw [List.getLast?_concat] at hname
  rw [← Option.some.inj hname]
  exact Keepable.of_stored husable (Bool.not_eq_true _ ▸ hshort)

/-- Making directories keeps a file system well-formed, whether or not all of them can be made. -/
theorem wellFormed_makeAlong {fs : FileSystem} (hfs : fs.WellFormed) {components : List Text}
    (husable : Spellable components) (here : AbsolutePath) (made : Bool) :
    (fs.makeAlong here made components).1.WellFormed ∧
      (fs.makeAlong here made components).1.workingDirectory = fs.workingDirectory := by
  induction components generalizing fs here made with
  | nil => exact ⟨hfs, rfl⟩
  | cons component rest ih =>
      obtain ⟨hcomponent, hrest⟩ := List.forall_mem_cons.mp husable
      rw [makeAlong]
      split
      · exact ih hfs hrest here made
      · split
        · exact ih hfs hrest here.dropLast made
        · split
          · exact ⟨hfs, rfl⟩
          · rename_i hlong
            dsimp only
            rw [landing_of_unlinked hfs.unlinked]
            split
            · exact ih hfs hrest _ made
            · exact ⟨hfs, rfl⟩
            · have hlast := Keepable.of_getLast?_concat here hcomponent hlong
              obtain ⟨hwell, hworking⟩ := ih (hfs.set hlast (.directory none)) hrest _ true
              exact ⟨hwell, hworking.trans (workingDirectory_set fs _ _)⟩

theorem spellable_fromRoot {fs : FileSystem} (hspell : Spellable fs.workingDirectory) {path : Path}
    (husable : usable path = .ok ()) : Spellable (fs.fromRoot path) := by
  have hparts : Spellable path.parts := parts_usable_of_usable husable
  unfold fromRoot
  split
  · exact List.forall_mem_append.mpr ⟨hspell, hparts⟩
  · exact hparts

theorem wellFormed_makeDirectory {fs : FileSystem} (hfs : fs.WellFormed)
    (hspell : Spellable fs.workingDirectory) (path : Path) :
    (fs.makeDirectory path).1.WellFormed ∧
      (fs.makeDirectory path).1.workingDirectory = fs.workingDirectory := by
  unfold makeDirectory
  cases husable : usable path with
  | error e => exact ⟨hfs, rfl⟩
  | ok u => exact wellFormed_makeAlong hfs (spellable_fromRoot hspell husable) [] false

theorem walk_of_notFound {fs : FileSystem} {path : Path}
    (h : fs.locate path = .error (.os .notFound)) :
    usable path = .ok () ∧ fs.walk path = .error .notFound := by
  unfold locate at h
  rcases usable_cases path with ⟨fault, -, husable⟩ | ⟨bytes, -, husable | husable⟩
  · rw [husable] at h
    cases Except.error.inj h
  · rw [husable] at h
    cases Except.error.inj h
  · rw [husable] at h
    dsimp only at h
    refine ⟨husable, ?_⟩
    cases hwalk : fs.walk path with
    | ok found =>
        rw [hwalk] at h
        contradiction
    | error e =>
        rw [hwalk] at h
        rw [FileError.os.inj (Except.error.inj h)]

/-- What is not found in a directory that is there is a name in it. -/
theorem child_of_notFound {fs : FileSystem} {path : Path} {directory : AbsolutePath}
    {given : Option Int} (hdirectory : fs.walk { path with parts := path.parts.dropLast }
      = .ok (directory, .directory given)) (h : fs.walk path = .error .notFound) :
    ∃ last, path = Path.child { path with parts := path.parts.dropLast } last ∧
      path.parts.getLast? = some last ∧
      fs.follow directory (.directory given) [last] = .error .notFound := by
  rcases List.eq_nil_or_concat path.parts with hnil | ⟨front, last, hparts⟩
  · -- then the directory is what the path itself leads to
    have hself : ({ path with parts := path.parts.dropLast } : Path) = path := by
      rw [hnil, List.dropLast_nil, ← hnil]
    rw [hself, h] at hdirectory
    contradiction
  · rw [List.concat_eq_append] at hparts
    have hchild : path = Path.child { path with parts := path.parts.dropLast } last := by
      unfold Path.child
      rw [hparts, List.dropLast_concat, ← hparts]
    refine ⟨last, hchild, by rw [hparts, List.getLast?_concat], ?_⟩
    rw [hchild, walk, fromRoot_child, follow_append] at h
    unfold walk at hdirectory
    rw [hdirectory] at h
    exact h

/-- A name that is not found was looked up. -/
theorem not_isTooLong_of_follow {fs : FileSystem} {here : AbsolutePath} {given : Option Int}
    {component : Text} (h : fs.follow here (.directory given) [component] = .error .notFound) :
    ¬isTooLong component = true := by
  intro hlong
  rw [follow.eq_def] at h
  dsimp only at h
  split_ifs at h
  · contradiction
  · contradiction
  · cases Except.error.inj h

/-- A file is put under a name that can be looked up. -/
theorem keepable_of_writable {fs : FileSystem} (hfs : fs.WellFormed) {path : Path}
    {place : AbsolutePath} (h : fs.writable path = .ok place) :
    ∀ name ∈ place.getLast?, Keepable name := by
  unfold writable at h
  split at h
  · contradiction
  · rename_i spot f hlocate
    obtain rfl := Except.ok.inj h
    rcases mem_entries_of_locate hlocate with hnone | hmem
    · contradiction
    · exact hfs.keepable spot (List.mem_map_of_mem hmem)
  · rename_i hlocate
    split at h
    · rename_i directory given hdirectory
      obtain ⟨husable, hwalk⟩ := walk_of_notFound hlocate
      obtain ⟨last, -, hgetLast, hfollow⟩ :=
        child_of_notFound (usable_of_locate hdirectory).2 hwalk
      have hlast : ∀ c ∈ last, PathName.isUsable c = true :=
        parts_usable_of_usable husable last (List.mem_of_getLast? hgetLast)
      rw [landing_of_unlinked hfs.unlinked, Path.name, hgetLast] at h
      obtain rfl := Except.ok.inj h
      exact Keepable.of_getLast?_concat directory hlast (not_isTooLong_of_follow hfollow)
    · contradiction
  · contradiction

end FileSystem

/-! ## Entries of a snapshot -/

namespace Snapshot

open FileSystem

theorem wellFormed_put {fs next : FileSystem} (hfs : fs.WellFormed)
    (hspell : Spellable fs.workingDirectory) {entry : Json} (h : put fs entry = (next, .ok ())) :
    next.WellFormed ∧ next.workingDirectory = fs.workingDirectory := by
  unfold put at h
  dsimp only at h
  split at h
  · obtain ⟨hmade, hworking⟩ := wellFormed_makeDirectory hfs hspell
      (Path.ofText (textOf (member entry "path")))
    obtain ⟨rfl, -⟩ := Prod.mk.inj h
    exact ⟨hmade, hworking⟩
  · split at h
    · cases (Prod.mk.inj h).2
    · rename_i made directory hmake
      obtain ⟨hmade, hworking⟩ := wellFormed_makeDirectory hfs hspell
        { Path.ofText (textOf (member entry "path")) with
          parts := (Path.ofText (textOf (member entry "path"))).parts.dropLast }
      rw [hmake] at hmade hworking
      split at h
      · cases (Prod.mk.inj h).2
      · cases (Prod.mk.inj h).2
      · rename_i content place _ hwritable
        obtain ⟨rfl, -⟩ := Prod.mk.inj h
        refine ⟨hmade.set (keepable_of_writable hmade hwritable) _, ?_⟩
        rw [workingDirectory_set]
        exact hworking

theorem wellFormed_bare {workingDirectory : AbsolutePath} (hplain : Path.Plain workingDirectory)
    (hspell : Spellable workingDirectory) :
    (bare workingDirectory).WellFormed ∧
      (bare workingDirectory).workingDirectory = workingDirectory := by
  have hempty : (FileSystem.mk workingDirectory [] [] []).WellFormed :=
    ⟨rfl, List.nodup_nil, fun _ hpath => absurd hpath List.not_mem_nil, hplain⟩
  exact wellFormed_makeAlong hempty hspell [] false

/-- The file system of a snapshot is well-formed. -/
theorem wellFormed_fileSystem {workingDirectory : AbsolutePath}
    (hplain : Path.Plain workingDirectory) (hspell : Spellable workingDirectory)
    {entries : List Json} {fs : FileSystem} (h : fileSystem workingDirectory entries = .ok fs) :
    fs.WellFormed := by
  obtain ⟨hbare, hworking⟩ := wellFormed_bare hplain hspell
  unfold fileSystem at h
  generalize bare workingDirectory = start at h hbare hworking
  rw [← hworking] at hspell
  clear hworking hplain
  induction entries generalizing start with
  | nil =>
      obtain rfl := Except.ok.inj h
      exact hbare
  | cons entry rest ih =>
      rw [List.foldlM_cons] at h
      cases hput : put start entry with
      | mk next done =>
          rw [hput] at h
          cases done with
          | error e => contradiction
          | ok u =>
              obtain ⟨hnext, hkept⟩ := wellFormed_put hbare hspell hput
              rw [← hkept] at hspell
              exact ih next hspell h hnext

end Snapshot

end MessageKeys
