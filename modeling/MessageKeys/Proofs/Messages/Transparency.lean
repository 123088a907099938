import Mathlib.Data.List.Permutation
import MessageKeys.Messages.Cache
import MessageKeys.Proofs.Files.Walking

/-!
# The cache does not show

Whatever happened to the files and to the cache before, a look-up answers as if there were no
cache, as long as no path has shown two contents at the same time (`get_transparent`).

The invariant of a run is `Backed`: every entry of the cache has the keys of a document that its
path has shown at the entry's time.  It says nothing about the present, so it is kept when the
files change, when a load fails and leaves an older entry behind, and when a document comes back.
Only a hit needs the proviso: the entry's time is the present one, so the entry's content is.
-/

namespace MessageKeys

/-- What happens to a cache and to the files behind it.  A change of the files can be any: that
something is written, touched, replaced or deleted. -/
inductive CacheEvent where
  | change (fs : FileSystem)
  | get (path : Path)
  | invalidate (path : Path)
  | clear

/-- A cache, the files behind it, and the file systems that were there before. -/
structure CacheRun where
  files : FileSystem
  past : List FileSystem := []
  cache : KeyCache := {}

/-- The time and the content that an absolute path shows.  A directory has no content, and no time
unless it was given one. -/
def FileSystem.shown? (fs : FileSystem) (place : AbsolutePath) : Option (Int × Option Bytes) :=
  match fs.locate (Path.ofAbsolute place) with
  | .ok (_, .file f) => some (f.modified, some f.content)
  | .ok (_, .directory given) => given.map fun modified => (modified, none)
  | .error _ => none

namespace CacheRun

/-- The run after an event. -/
def step [Json.Limits] (run : CacheRun) : CacheEvent → CacheRun
  | .change fs => { run with files := fs, past := run.files :: run.past }
  | .get path => { run with cache := (run.cache.get run.files path).2 }
  | .invalidate path =>
      match run.cache.invalidate run.files path with
      | .ok cache => { run with cache }
      | .error _ => run
  | .clear => { run with cache := run.cache.clear }

/-- The run after some events. -/
def after [Json.Limits] (run : CacheRun) (events : List CacheEvent) : CacheRun :=
  events.foldl step run

/-- No path has shown two contents at the same time. -/
def Consistent (run : CacheRun) : Prop :=
  ∀ first ∈ run.files :: run.past, ∀ second ∈ run.files :: run.past,
    ∀ place modified content other, first.shown? place = some (modified, content) →
      second.shown? place = some (modified, other) → content = other

/-- Every entry of the cache has the keys of a document that its path has shown at its time. -/
def Backed [Json.Limits] (run : CacheRun) : Prop :=
  ∀ place entry, (place, entry) ∈ run.cache.entries → ∃ fs ∈ run.files :: run.past, ∃ content,
    fs.shown? place = some (entry.modified, some content) ∧
      (Document.decode (AbsolutePath.toText place) content).map Document.keys = .ok entry.keys

theorem backed_of_subset [Json.Limits] {run next : CacheRun} (h : run.Backed)
    (hpast : run.files :: run.past ⊆ next.files :: next.past)
    (hentries : next.cache.entries ⊆ run.cache.entries) : next.Backed := by
  intro place entry hmem
  obtain ⟨fs, hfs, hshown⟩ := h place entry (hentries hmem)
  exact ⟨fs, hpast hfs, hshown⟩

end CacheRun

namespace FileSystem

theorem readKeys_of_file [Json.Limits] {fs : FileSystem} {path : Path} {spot : AbsolutePath}
    {f : File} (h : fs.locate path = .ok (spot, .file f)) :
    fs.readKeys path = (Document.decode path.toText f.content).map Document.keys := by
  unfold readKeys readMessages readFile
  rw [h]

theorem readKeys_of_directory [Json.Limits] {fs : FileSystem} {path : Path} {spot : AbsolutePath}
    {given : Option Int} (h : fs.locate path = .ok (spot, .directory given)) :
    fs.readKeys path = .error
      (.unusable ⟨path.toText, .invalid (OsError.isADirectory.message path.toText)⟩) := by
  unfold readKeys readMessages readFile
  rw [h]
  rfl

theorem shown?_of_file {fs : FileSystem} {place spot : AbsolutePath} {f : File}
    (h : fs.locate (Path.ofAbsolute place) = .ok (spot, .file f)) :
    fs.shown? place = some (f.modified, some f.content) := by
  unfold shown?
  rw [h]

/-- The time of a document that loads is shown with a content that has its keys. -/
theorem shown?_of_readKeys [Json.Limits] {fs : FileSystem} {place spot : AbsolutePath}
    {entry : Entry}
    (hlocate : fs.locate (Path.ofAbsolute place) = .ok (spot, entry)) {modified : Int}
    (hmodified : entry.modified? = some modified) {keys : KeySet}
    (hkeys : fs.readKeys (Path.ofAbsolute place) = .ok keys) :
    ∃ content, fs.shown? place = some (modified, some content) ∧
      (Document.decode (AbsolutePath.toText place) content).map Document.keys = .ok keys := by
  cases entry with
  | directory given =>
      rw [readKeys_of_directory hlocate] at hkeys
      contradiction
  | file f =>
      obtain rfl := Option.some.inj hmodified
      rw [readKeys_of_file hlocate] at hkeys
      exact ⟨f.content, shown?_of_file hlocate, hkeys⟩

/-- A path that shows the content of a document at its present time has the keys of it. -/
theorem readKeys_of_shown? [Json.Limits] {fs : FileSystem} {place spot : AbsolutePath}
    {entry : Entry}
    (hlocate : fs.locate (Path.ofAbsolute place) = .ok (spot, entry)) {modified : Int}
    (hmodified : entry.modified? = some modified) {content : Bytes} {keys : KeySet}
    (hshown : ∀ other, fs.shown? place = some (modified, other) → some content = other)
    (hkeys : (Document.decode (AbsolutePath.toText place) content).map Document.keys = .ok keys) :
    fs.readKeys (Path.ofAbsolute place) = .ok keys := by
  cases entry with
  | directory given =>
      have hnone : fs.shown? place = some (modified, none) := by
        unfold shown?
        rw [hlocate, show given = some modified from hmodified]
        rfl
      exact absurd (hshown none hnone) (Option.some_ne_none content)
  | file f =>
      obtain rfl := Option.some.inj hmodified
      rw [readKeys_of_file hlocate, ← Option.some.inj (hshown _ (shown?_of_file hlocate))]
      exact hkeys

end FileSystem

namespace KeyCache

section

variable {cache : KeyCache} {fs : FileSystem} {path : Path} {place : AbsolutePath}

/-- A look-up that is not answered from the cache is answered as without one. -/
theorem getAt_answer [Json.Limits] (cache : KeyCache) (fs : FileSystem) (path : Path)
    (place : AbsolutePath) :
    (cache.getAt fs path place).1 = (({} : KeyCache).getAt fs path place).1 ∨
      ∃ spot entry found, fs.locate (Path.ofAbsolute place) = .ok (spot, entry) ∧
        (place, found) ∈ cache.entries ∧ entry.modified? = some found.modified ∧
        (cache.getAt fs path place).1 = .ok found.keys := by
  unfold getAt
  cases hlocate : fs.locate (Path.ofAbsolute place) with
  | error e =>
      refine Or.inl ?_
      cases e with
      | path fault => rfl
      | os e => cases e <;> rfl
  | ok found =>
      obtain ⟨spot, entry⟩ := found
      dsimp only
      cases hcached : (Assoc.get? place cache.entries).filter fun found =>
          decide (some found.modified = entry.modified?) with
      | some found =>
          rw [Option.filter_eq_some_iff, decide_eq_true_eq] at hcached
          exact Or.inr ⟨spot, entry, found, rfl, Assoc.mem_of_get? hcached.1, hcached.2.symm, rfl⟩
      | none =>
          refine Or.inl ?_
          cases fs.readKeys (Path.ofAbsolute place) <;> rfl

/-- What a look-up adds to the cache are the keys of a document at its present time. -/
theorem getAt_entries [Json.Limits] {pair : AbsolutePath × CacheEntry}
    (h : pair ∈ (cache.getAt fs path place).2.entries) :
    pair ∈ cache.entries ∨ ∃ spot entry modified keys,
      fs.locate (Path.ofAbsolute place) = .ok (spot, entry) ∧ entry.modified? = some modified ∧
        fs.readKeys (Path.ofAbsolute place) = .ok keys ∧ pair = (place, ⟨modified, keys⟩) := by
  unfold getAt at h
  cases hlocate : fs.locate (Path.ofAbsolute place) with
  | error e =>
      rw [hlocate] at h
      refine Or.inl ?_
      cases e with
      | path fault => exact h
      | os e =>
          cases e with
          | notFound => exact List.mem_of_mem_filter h
          | _ => exact h
  | ok found =>
      obtain ⟨spot, entry⟩ := found
      rw [hlocate] at h
      dsimp only at h
      split at h
      · exact Or.inl h
      · cases hkeys : fs.readKeys (Path.ofAbsolute place) with
        | error e =>
            rw [hkeys] at h
            exact Or.inl h
        | ok keys =>
            rw [hkeys] at h
            unfold store at h
            cases hmodified : entry.modified? with
            | none =>
                rw [hmodified] at h
                exact Or.inl h
            | some modified =>
                rw [hmodified] at h
                rcases Assoc.mem_of_mem_insert h with rfl | hmem
                · exact Or.inr ⟨spot, entry, modified, keys, rfl, hmodified, rfl, rfl⟩
                · exact Or.inl hmem

/-- Without a cache a look-up loads the document. -/
theorem getAt_empty [Json.Limits] {spot : AbsolutePath} {entry : Entry}
    (h : fs.locate (Path.ofAbsolute place) = .ok (spot, entry)) (path : Path) :
    (({} : KeyCache).getAt fs path place).1 = fs.readKeys (Path.ofAbsolute place) := by
  unfold getAt
  rw [h]
  dsimp only
  cases fs.readKeys (Path.ofAbsolute place) <;> rfl

end

end KeyCache

/-- What an error comes down to: the code of its diagnostic, or itself if it has none. -/
def LoadError.kind : LoadError → DiagnosticCode ⊕ LoadError
  | .unusable failure => .inl failure.diagnostic.code
  | e => .inr e

theorem kind_decode [Json.Limits] (first second : Text) (content : Bytes) :
    ((Document.decode first content).map Document.keys).mapError LoadError.kind
      = ((Document.decode second content).map Document.keys).mapError LoadError.kind := by
  unfold Document.decode Document.parse
  cases Utf8.decode? content with
  | none => rfl
  | some text =>
      dsimp only
      split <;> rfl

namespace FileSystem

/-- A path that leads where its resolved form leads. -/
structure Spells (fs : FileSystem) (path : Path) (place : AbsolutePath) : Prop where
  unlinked : fs.links = []
  working : Path.Plain fs.workingDirectory
  given : usable path = .ok ()
  resolved : usable (Path.ofAbsolute place) = .ok ()
  leads : PathName.up ∉ path.parts ∨ ∃ found, fs.locate path = .ok found

/-- By a path that cannot be resolved nothing can be loaded. -/
theorem readKeys_of_resolve? [Json.Limits] {fs : FileSystem} {path : Path} {fault : PathFault}
    (h : fs.resolve? path = .error fault) :
    ∃ other, fs.readKeys path = .error (.path other) := by
  have hnot : ¬∃ bytes, path.usableBytes = .ok bytes := by
    rw [← Path.fault?_eq_none_iff]
    intro hnone
    unfold resolve? at h
    rw [hnone] at h
    contradiction
  rcases usable_cases path with ⟨other, -, husable⟩ | ⟨bytes, hbytes, -⟩
  · refine ⟨other, ?_⟩
    unfold readKeys readMessages readFile locate
    rw [husable]
    rfl
  · exact absurd ⟨bytes, hbytes⟩ hnot

/-- Paths that lead to the same load alike. -/
theorem kind_readKeys_of_locate [Json.Limits] {fs : FileSystem} {path other : Path}
    (h : fs.locate path = fs.locate other) :
    (fs.readKeys path).mapError LoadError.kind = (fs.readKeys other).mapError LoadError.kind := by
  cases hlocate : fs.locate other with
  | error e =>
      unfold readKeys readMessages readFile
      rw [h, hlocate]
      cases e with
      | path fault => rfl
      | os e => cases e <;> rfl
  | ok found =>
      obtain ⟨spot, entry⟩ := found
      cases entry with
      | directory given =>
          rw [readKeys_of_directory (h.trans hlocate), readKeys_of_directory hlocate]
          rfl
      | file f =>
          rw [readKeys_of_file (h.trans hlocate), readKeys_of_file hlocate]
          exact kind_decode _ _ _

end FileSystem

/-- Without a cache a look-up fails as loading by the absolute path does. -/
theorem KeyCache.kind_getAt_empty [Json.Limits] (fs : FileSystem) (path : Path)
    (place : AbsolutePath) :
    (({} : KeyCache).getAt fs path place).1.mapError LoadError.kind
      = (fs.readKeys (Path.ofAbsolute place)).mapError LoadError.kind := by
  cases hlocate : fs.locate (Path.ofAbsolute place) with
  | ok found => rw [getAt_empty hlocate]
  | error e =>
      unfold getAt FileSystem.readKeys FileSystem.readMessages FileSystem.readFile
      rw [hlocate]
      cases e with
      | path fault => rfl
      | os e => cases e <;> rfl

namespace CacheRun

theorem backed_step [Json.Limits] {run : CacheRun} (h : run.Backed) (event : CacheEvent) :
    (run.step event).Backed := by
  cases event with
  | change fs => exact backed_of_subset h (List.subset_cons_self _ _) (List.Subset.refl _)
  | get path =>
      intro place entry hmem
      change (place, entry) ∈ (run.cache.get run.files path).2.entries at hmem
      unfold KeyCache.get at hmem
      cases hplace : run.files.resolve? path with
      | error fault =>
          rw [hplace] at hmem
          exact h place entry hmem
      | ok resolved =>
          rw [hplace] at hmem
          rcases KeyCache.getAt_entries hmem with hold | ⟨spot, found, modified, keys, hlocate,
            hmodified, hkeys, heq⟩
          · exact h place entry hold
          · obtain ⟨rfl, rfl⟩ := Prod.mk.inj heq
            exact ⟨run.files, List.mem_cons_self,
              FileSystem.shown?_of_readKeys hlocate hmodified hkeys⟩
  | invalidate path =>
      unfold step KeyCache.invalidate
      dsimp only
      cases run.files.resolve? path with
      | error fault => exact h
      | ok place => exact backed_of_subset h (List.Subset.refl _) (List.filter_subset_self _)
  | clear => exact nofun

theorem backed_new [Json.Limits] (fs : FileSystem) : (CacheRun.mk fs [] {}).Backed := by
  intro place entry hmem
  exact absurd hmem List.not_mem_nil

/-- Entries stay backed over a whole run. -/
theorem backed_after [Json.Limits] {run : CacheRun} (h : run.Backed) (events : List CacheEvent) :
    (run.after events).Backed := by
  induction events generalizing run with
  | nil => exact h
  | cons event rest ih => exact ih (backed_step h event)

/-- A look-up in a backed cache is answered as without it. -/
theorem getAt_of_backed [Json.Limits] {run : CacheRun} (hbacked : run.Backed)
    (hconsistent : run.Consistent) (path : Path) (place : AbsolutePath) :
    (run.cache.getAt run.files path place).1
      = (({} : KeyCache).getAt run.files path place).1 := by
  rcases run.cache.getAt_answer run.files path place with
    hsame | ⟨spot, entry, found, hlocate, hmem, hmodified, hhit⟩
  · exact hsame
  · obtain ⟨fs, hfs, content, hshown, hkeys⟩ := hbacked place found hmem
    -- the entry has the present time, so what it was made from is shown at present
    have hpresent : ∀ other, run.files.shown? place = some (found.modified, other) →
        some content = other := fun other hother =>
      hconsistent fs hfs run.files List.mem_cons_self place _ _ _ hshown hother
    rw [hhit, KeyCache.getAt_empty hlocate]
    exact (FileSystem.readKeys_of_shown? hlocate hmodified hpresent hkeys).symm

/-- However the files and the cache changed before, a look-up answers as a new cache would: with
the keys of the document at the resolved path, or with an error of the kind that loading it gives.
If the path itself has no `..` or gets somewhere, that is what loading by the path gives as well. -/
theorem get_transparent [Json.Limits] (fs : FileSystem) (events : List CacheEvent)
    (hconsistent : ((CacheRun.mk fs [] {}).after events).Consistent) (text : Text) :
    let run := (CacheRun.mk fs [] {}).after events
    let path := Path.ofText text
    let answer := (run.cache.get run.files path).1
    answer = (({} : KeyCache).get run.files path).1 ∧
    (∀ place, run.files.resolve? path = .ok place →
      answer.mapError LoadError.kind
          = (run.files.readKeys (Path.ofAbsolute place)).mapError LoadError.kind ∧
        (run.files.Spells path place →
          answer.mapError LoadError.kind = (run.files.readKeys path).mapError LoadError.kind)) ∧
    ∀ fault, run.files.resolve? path = .error fault →
      answer = .error (.path fault) ∧ ∃ other, run.files.readKeys path = .error (.path other) := by
  intro run path answer
  have hbacked : run.Backed := backed_after (backed_new fs) events
  have hanswer : ∀ place, run.files.resolve? path = .ok place →
      answer = (({} : KeyCache).getAt run.files path place).1 := by
    intro place hplace
    rw [← getAt_of_backed hbacked hconsistent path place]
    unfold answer KeyCache.get
    rw [hplace]
  refine ⟨?_, fun place hplace => ?_, fun fault hfault => ⟨?_, ?_⟩⟩
  · cases hplace : run.files.resolve? path with
    | ok place =>
        rw [hanswer place hplace, KeyCache.get, hplace]
    | error fault =>
        unfold answer KeyCache.get
        rw [hplace]
  · have hkind := KeyCache.kind_getAt_empty run.files path place
    rw [← hanswer place hplace] at hkind
    refine ⟨hkind, fun hspells => ?_⟩
    obtain rfl := FileSystem.eq_resolve_of_unlinked hspells.unlinked hplace
    rw [hkind]
    exact FileSystem.kind_readKeys_of_locate (FileSystem.locate_resolve hspells.unlinked
      hspells.working (Path.proper_ofText text) hspells.given hspells.resolved hspells.leads)
  · unfold answer KeyCache.get
    rw [hfault]
  · exact FileSystem.readKeys_of_resolve? hfault

/-- A file system with one document. -/
def oneDocument (content : Bytes) (modified : Int) : FileSystem where
  workingDirectory := []
  entries := [(["en.json"], .file ⟨content, modified, default⟩)]

theorem shown?_oneDocument {content : Bytes} {modified time : Int} {place : AbsolutePath}
    {shown : Option Bytes} (h : (oneDocument content modified).shown? place = some (time, shown)) :
    time = modified ∧ shown = some content := by
  unfold FileSystem.shown? at h
  split at h
  · rename_i spot f hlocate
    rcases FileSystem.mem_entries_of_locate hlocate with hnone | hmem
    · contradiction
    · obtain ⟨-, hfile⟩ := Prod.mk.inj (List.mem_singleton.mp hmem)
      obtain rfl := Entry.file.inj hfile
      obtain ⟨rfl, rfl⟩ := Prod.mk.inj (Option.some.inj h)
      exact ⟨rfl, rfl⟩
  · rename_i spot given hlocate
    rcases FileSystem.mem_entries_of_locate hlocate with hnone | hmem
    · rw [Entry.directory.inj hnone] at h
      contradiction
    · exact absurd (Prod.mk.inj (List.mem_singleton.mp hmem)).2 nofun
  · contradiction

section

open scoped Usual

/-- A document is loaded, broken, loaded in vain, and put back with its old time: the entry that
the failed load left behind is right again. -/
theorem get_transparent_put_back :
    let events := [.get (Path.ofText "en.json"), .change (oneDocument [0xff] 1),
      .get (Path.ofText "en.json"), .change (oneDocument [0x7b, 0x7d] 0)]
    let run := (CacheRun.mk (oneDocument [0x7b, 0x7d] 0) [] {}).after events
    run.Consistent ∧ run.cache.size = 1 ∧
      (run.cache.get run.files (Path.ofText "en.json")).1
        = (({} : KeyCache).get run.files (Path.ofText "en.json")).1 := by
  intro events run
  have hmoments : run.files :: run.past = [oneDocument [0x7b, 0x7d] 0, oneDocument [0xff] 1,
      oneDocument [0x7b, 0x7d] 0] := rfl
  have hshown : ∀ fs ∈ run.files :: run.past, ∀ place modified content,
      fs.shown? place = some (modified, content) →
        modified = 0 ∧ content = some [0x7b, 0x7d] ∨ modified = 1 ∧ content = some [0xff] := by
    rw [hmoments]
    intro fs hfs place modified content hcontent
    rcases List.mem_cons.mp hfs with rfl | hfs
    · exact Or.inl (shown?_oneDocument hcontent)
    · rcases List.mem_pair.mp hfs with rfl | rfl
      · exact Or.inr (shown?_oneDocument hcontent)
      · exact Or.inl (shown?_oneDocument hcontent)
  have hconsistent : run.Consistent := by
    intro first hfirst second hsecond place modified content other hcontent hother
    rcases hshown first hfirst place modified content hcontent with ⟨rfl, rfl⟩ | ⟨rfl, rfl⟩
    · rcases hshown second hsecond place 0 other hother with ⟨-, rfl⟩ | ⟨hzero, -⟩
      · rfl
      · contradiction
    · rcases hshown second hsecond place 1 other hother with ⟨hone, -⟩ | ⟨-, rfl⟩
      · contradiction
      · rfl
  have hkept : run.cache.size = 1 := by cbv
  exact ⟨hconsistent, hkept, (get_transparent _ events hconsistent "en.json").1⟩

end

end CacheRun

end MessageKeys
