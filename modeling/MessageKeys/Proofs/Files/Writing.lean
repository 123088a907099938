import MessageKeys.Proofs.Files.Outline
import MessageKeys.Proofs.Files.Snapshots

/-!
# Writing files

A file can be written at a path that leads to a file, and where there are no links also at one that
leads to nothing in a directory that is there (`Writable`).  What was written there is what the path
reads (`readFile_overwrite`).

In the first case only the content of the file changes.  In the second the directories on the way
are still directories (`Grows.follow`), though the last of them is now one that changed.
-/

namespace MessageKeys.FileSystem

/-- A path at which a file can be written. -/
inductive Writable (fs : FileSystem) (path : Path) : Prop
  | replace {place : AbsolutePath} {f : File} (h : fs.locate path = .ok (place, .file f))
  | create (hlinks : fs.links = []) {directory : AbsolutePath} {given : Option Int}
      (hdirectory : fs.locate { path with parts := path.parts.dropLast }
        = .ok (directory, .directory given))
      (h : fs.locate path = .error (.os .notFound))

/-! ## A file that is made -/

/-- Directories stay directories, and links are the same. -/
structure Grows (fs next : FileSystem) : Prop where
  links : next.links = fs.links
  directories : ∀ place given, fs.entry? place = some (.directory given) →
    ∃ found, next.entry? place = some (.directory found)

theorem grows_insert (fs : FileSystem) (path : AbsolutePath) :
    Grows fs { fs with entries := Assoc.insert path (.directory none) fs.entries } := by
  refine ⟨rfl, fun place given h => ?_⟩
  by_cases hroot : place = []
  · rw [hroot]
    exact ⟨none, rfl⟩
  · rw [entry?_of_ne_nil _ hroot] at h ⊢
    by_cases hplace : place = path
    · rw [hplace, Assoc.get?_insert_self]
      exact ⟨none, rfl⟩
    · rw [Assoc.get?_insert_of_ne hplace]
      exact ⟨given, h⟩

theorem Grows.trans {first second third : FileSystem} (h : Grows first second)
    (h' : Grows second third) : Grows first third := by
  refine ⟨h'.links.trans h.links, fun place given hplace => ?_⟩
  obtain ⟨found, hfound⟩ := h.directories place given hplace
  exact h'.directories place found hfound

theorem entry?_set_self (fs : FileSystem) {path : AbsolutePath} (hpath : path ≠ [])
    (entry : Entry) :
    FileSystem.entry? (fs.set path entry) path = some entry := by
  rw [entry?_of_ne_nil _ hpath]
  exact Assoc.get?_insert_self _ _ _

/-- A place in a file system where every step from the root on is a directory. -/
def Open (fs : FileSystem) (here : AbsolutePath) : Prop :=
  ∀ place, place <+: here → ∃ given, fs.entry? place = some (.directory given)

theorem Open.concat {fs : FileSystem} {here : AbsolutePath} (h : Open fs here) {name : Text}
    {given : Option Int} (hname : fs.entry? (here ++ [name]) = some (.directory given)) :
    Open fs (here ++ [name]) := by
  intro place hplace
  rcases List.prefix_concat_iff.mp hplace with rfl | hbefore
  · exact ⟨given, hname⟩
  · exact h place hbefore

theorem open_nil (fs : FileSystem) : Open fs [] := by
  intro place hplace
  rw [List.prefix_nil.mp hplace]
  exact ⟨none, rfl⟩

/-- A walk to a directory is still one when directories stay directories. -/
theorem Grows.follow {fs next : FileSystem} (hfs : fs.links = []) (hgrows : Grows fs next)
    {components : List Text} {here place : AbsolutePath} {start given : Option Int}
    (hopen : Open fs here)
    (h : fs.follow here (.directory start) components = .ok (place, .directory given)) :
    ∀ start, ∃ found, next.follow here (.directory start) components
      = .ok (place, .directory found) := by
  have hnext : next.links = [] := hgrows.links.trans hfs
  induction components generalizing here start with
  | nil =>
      intro start
      obtain ⟨rfl, -⟩ := Prod.mk.inj (Except.ok.inj h)
      exact ⟨start, rfl⟩
  | cons component rest ih =>
      intro start
      rw [FileSystem.follow.eq_def] at h ⊢
      dsimp only at h ⊢
      rw [landing_of_unlinked hfs] at h
      rw [landing_of_unlinked hnext]
      split_ifs at h ⊢
      · exact ih hopen h start
      · have hparent : Open fs here.dropLast := fun place hplace =>
          hopen place (hplace.trans (List.dropLast_prefix here))
        obtain ⟨was, hwas⟩ := hparent here.dropLast List.prefix_rfl
        obtain ⟨now, hnow⟩ := hgrows.directories _ _ hwas
        rw [hwas] at h
        rw [hnow]
        exact ih hparent h now
      · cases hentry : fs.entry? (here ++ [PathName.stored component]) with
        | none =>
            rw [hentry] at h
            contradiction
        | some entry =>
            rw [hentry] at h
            cases entry with
            | file f => exact absurd h (follow_file_ne_directory rest)
            | directory was =>
                obtain ⟨now, hnow⟩ := hgrows.directories _ _ hentry
                rw [hnow]
                exact ih (hopen.concat hentry) h now

theorem grows_change (fs : FileSystem) (directory : AbsolutePath) :
    Grows fs (fs.change directory) := by
  unfold change
  split
  · exact grows_insert fs directory
  · exact ⟨rfl, fun place given h => ⟨given, h⟩⟩

theorem entry?_change_of_ne (fs : FileSystem) {directory place : AbsolutePath}
    (h : place ≠ directory) : FileSystem.entry? (fs.change directory) place = fs.entry? place := by
  unfold change
  split
  · by_cases hroot : place = []
    · rw [hroot]
      rfl
    · rw [entry?_of_ne_nil _ hroot, entry?_of_ne_nil _ hroot]
      exact Assoc.get?_insert_of_ne h _ _
  · rfl

/-- Making a file takes no directory away. -/
theorem grows_set_file {fs : FileSystem} {path : AbsolutePath} (hpath : path ≠ [])
    (h : fs.entry? path = none) (f : File) : Grows fs (fs.set path (.file f)) := by
  have hparent : path ≠ path.dropLast := by
    intro heq
    have hlength := congrArg List.length heq
    have hpos := List.length_pos_of_ne_nil hpath
    rw [List.length_dropLast] at hlength
    omega
  unfold FileSystem.set
  rw [h]
  refine (grows_change fs path.dropLast).trans ⟨rfl, fun place given hplace => ?_⟩
  have hne : place ≠ path := by
    rintro rfl
    rw [entry?_change_of_ne fs hparent, h] at hplace
    contradiction
  by_cases hroot : place = []
  · rw [hroot]
    exact ⟨none, rfl⟩
  · rw [entry?_of_ne_nil _ hroot] at hplace ⊢
    exact ⟨given, (Assoc.get?_insert_of_ne hne _ _).trans hplace⟩

theorem follow_of_notFound {fs : FileSystem} (hfs : fs.links = []) {here : AbsolutePath}
    {given : Option Int} {name : Text}
    (h : fs.follow here (.directory given) [name] = .error .notFound) :
    ¬(name.isEmpty || decide (name = PathName.here)) = true ∧ name ≠ PathName.up ∧
      fs.entry? (here ++ [PathName.stored name]) = none := by
  rw [follow.eq_def] at h
  dsimp only at h
  rw [landing_of_unlinked hfs] at h
  split_ifs at h with hskip hup
  · contradiction
  · contradiction
  · cases Except.error.inj h
  · refine ⟨hskip, hup, ?_⟩
    split at h
    · contradiction
    · assumption

/-- A path that leads to nothing in a directory leads to the file that is made there. -/
theorem locate_overwrite_new {fs : FileSystem} (hfs : fs.links = []) {path : Path}
    {directory : AbsolutePath} {given : Option Int}
    (hdirectory : fs.locate { path with parts := path.parts.dropLast }
      = .ok (directory, .directory given))
    (h : fs.locate path = .error (.os .notFound)) (content : Bytes) :
    let place := directory ++ [PathName.stored path.name]
    FileSystem.locate (fs.overwrite place content) path
      = .ok (place, .file ⟨content, 0, default⟩) := by
  obtain ⟨husable, hwalk⟩ := walk_of_notFound h
  have hfront := (usable_of_locate hdirectory).2
  obtain ⟨last, hchild, hgetLast, hfollow⟩ := child_of_notFound hfront hwalk
  obtain ⟨hskip, hup, hnone⟩ := follow_of_notFound hfs hfollow
  unfold walk at hfront
  rw [show path.name = last by rw [Path.name, hgetLast]; rfl]
  intro place
  have hne : place ≠ [] := by simp [place]
  have hafter : fs.overwrite place content = fs.set place (.file ⟨content, 0, default⟩) := by
    unfold overwrite
    rw [hnone]
  have hgrows : Grows fs (fs.set place (.file ⟨content, 0, default⟩)) :=
    grows_set_file hne hnone _
  obtain ⟨found, hwalked⟩ := hgrows.follow hfs (open_nil fs) hfront none
  have hroot : (fs.set place (.file ⟨content, 0, default⟩)).fromRoot path = fs.fromRoot path := by
    unfold fromRoot
    rw [workingDirectory_set]
  have hlanding := landing_of_unlinked (hgrows.links.trans hfs) place
  have hself : FileSystem.entry? (fs.set place (.file ⟨content, 0, default⟩))
      (FileSystem.landing (fs.set place (.file ⟨content, 0, default⟩))
        (directory ++ [PathName.stored last])) = some (.file ⟨content, 0, default⟩) := by
    rw [hlanding]
    exact entry?_set_self fs hne _
  rw [hafter, locate_of_usable husable, walk, hroot, hchild, fromRoot_child, follow_append, hwalked]
  dsimp only
  rw [follow_cons hskip hup (not_isTooLong_of_follow hfollow) hself, hlanding]
  rfl

/-! ## Any file -/

/-- What was written at a path is what the path reads. -/
theorem readFile_overwrite {fs : FileSystem} {path : Path} (h : fs.Writable path) :
    ∃ place, fs.writable path = .ok place ∧ ∀ content, ∃ f,
      FileSystem.readFile (fs.overwrite place content) path = .ok f ∧ f.content = content := by
  unfold readFile writable
  cases h with
  | @replace place f h =>
      rw [h]
      refine ⟨place, rfl, fun content => ⟨⟨content, f.modified + 1, default⟩, ?_, rfl⟩⟩
      have hf := entry?_of_locate h
      have hlocate : FileSystem.locate (fs.overwrite place content) path
          = .ok (place, .file ⟨content, f.modified + 1, default⟩) := by
        refine locate_file_of_outline (outline_overwrite hf content) h ?_
        rw [entry?_overwrite hf, if_pos rfl]
      rw [hlocate]
  | @create hlinks directory given hdirectory h =>
      rw [h]
      dsimp only
      rw [hdirectory]
      dsimp only
      rw [landing_of_unlinked hlinks]
      refine ⟨_, rfl, fun content => ⟨⟨content, 0, default⟩, ?_, rfl⟩⟩
      rw [locate_overwrite_new hlinks hdirectory h content]

end MessageKeys.FileSystem
