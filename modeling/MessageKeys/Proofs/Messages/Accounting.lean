import Mathlib.Data.List.Induction
import MessageKeys.Proofs.Messages.Transparency

/-!
# What the cache counts

A look-up is counted when the time of the file is known, before anything is loaded, and an entry is
made only after the document was loaded.  So the hits and misses are the look-ups since the last
reset for which there was a time, and every entry has a miss that it was made by (`accounts_run`).

A look-up can end in six ways (`KeyCache.Lookup`), and all that is said here of one look-up is read
off them.  The look-ups of a run are counted on the side of the files alone: `moments` pairs every
event with the files as they are when it happens.
-/

namespace MessageKeys

namespace KeyCache

/-- The ways in which a look-up ends: with an answer and the cache that it leaves. -/
inductive Lookup (cache : KeyCache) (fs : FileSystem) (path : Path) :
    Except LoadError KeySet → KeyCache → Prop
  /-- The path has no absolute form. -/
  | unresolved {fault : PathFault} (hplace : fs.resolve? path = .error fault) :
      Lookup cache fs path (.error (.path fault)) cache
  /-- The file does not exist. -/
  | gone {place : AbsolutePath} {e : LoadError}
      (hplace : fs.resolve? path = .ok place)
      (hgone : fs.locate (Path.ofAbsolute place) = .error (.os .notFound)) :
      Lookup cache fs path (.error e)
        { cache with entries := Assoc.erase place cache.entries }
  /-- The file cannot be asked for its time for another reason. -/
  | unreachable {place : AbsolutePath} {reason : FileError} {e : LoadError}
      (hplace : fs.resolve? path = .ok place)
      (hreason : fs.locate (Path.ofAbsolute place) = .error reason) :
      Lookup cache fs path (.error e) cache
  /-- The entry has the time of the file. -/
  | hit {place : AbsolutePath} {found : AbsolutePath × Entry} {keys : KeySet}
      (hplace : fs.resolve? path = .ok place)
      (hfound : fs.locate (Path.ofAbsolute place) = .ok found) :
      Lookup cache fs path (.ok keys) { cache with hits := cache.hits + 1 }
  /-- The document is needed and cannot be loaded. -/
  | failed {place : AbsolutePath} {found : AbsolutePath × Entry} {e : LoadError}
      (hplace : fs.resolve? path = .ok place)
      (hfound : fs.locate (Path.ofAbsolute place) = .ok found) :
      Lookup cache fs path (.error e) { cache with misses := cache.misses + 1 }
  /-- The document is loaded and kept. -/
  | loaded {place : AbsolutePath} {found : AbsolutePath × Entry} {keys : KeySet}
      (hplace : fs.resolve? path = .ok place)
      (hfound : fs.locate (Path.ofAbsolute place) = .ok found) :
      Lookup cache fs path (.ok keys)
        (store { cache with misses := cache.misses + 1 } place found.2 keys)

theorem lookup_getAt [Json.Limits] (cache : KeyCache) (fs : FileSystem) (path : Path)
    {place : AbsolutePath} (hplace : fs.resolve? path = .ok place) :
    Lookup cache fs path (cache.getAt fs path place).1 (cache.getAt fs path place).2 := by
  unfold getAt
  cases hlocate : fs.locate (Path.ofAbsolute place) with
  | error reason =>
      cases reason with
      | path fault => exact .unreachable hplace hlocate
      | os e =>
          cases e with
          | notFound => exact .gone hplace hlocate
          | _ => exact .unreachable hplace hlocate
  | ok found =>
      obtain ⟨spot, entry⟩ := found
      dsimp only
      cases (Assoc.get? place cache.entries).filter fun found =>
          decide (some found.modified = entry.modified?) with
      | some found => exact .hit hplace hlocate
      | none =>
          cases fs.readKeys (Path.ofAbsolute place) with
          | error e => exact .failed hplace hlocate
          | ok keys => exact .loaded hplace hlocate

/-- Every look-up ends in one of the six ways. -/
theorem lookup_get [Json.Limits] (cache : KeyCache) (fs : FileSystem) (path : Path) :
    Lookup cache fs path (cache.get fs path).1 (cache.get fs path).2 := by
  unfold get
  cases hplace : fs.resolve? path with
  | error fault => exact .unresolved hplace
  | ok place => exact lookup_getAt cache fs path hplace

end KeyCache

namespace FileSystem

/-- Whether the file behind a path can be asked for its time. -/
def reaches (fs : FileSystem) (path : Path) : Bool :=
  match fs.resolve? path with
  | .ok place => (fs.locate (Path.ofAbsolute place)).isOk
  | .error _ => false

variable {fs : FileSystem} {path : Path}

theorem reaches_of_error {fault : PathFault}
    (h : fs.resolve? path = .error fault) : fs.reaches path = false := by
  unfold reaches
  rw [h]

theorem reaches_of_ok {place : AbsolutePath} (h : fs.resolve? path = .ok place) :
    fs.reaches path = (fs.locate (Path.ofAbsolute place)).isOk := by
  unfold reaches
  rw [h]

end FileSystem

/-! ## One look-up -/

namespace KeyCache

section

variable {cache after : KeyCache} {fs : FileSystem} {path : Path}
  {answer : Except LoadError KeySet}

theorem counts_store (cache : KeyCache) (place : AbsolutePath) (entry : Entry) (keys : KeySet) :
    (cache.store place entry keys).hits = cache.hits ∧
      (cache.store place entry keys).misses = cache.misses := by
  unfold store
  cases entry.modified? with
  | none => exact ⟨rfl, rfl⟩
  | some modified => exact ⟨rfl, rfl⟩

theorem size_store_le (cache : KeyCache) (place : AbsolutePath) (entry : Entry) (keys : KeySet) :
    (cache.store place entry keys).size ≤ cache.size + 1 := by
  unfold store size
  cases entry.modified? with
  | none => exact Nat.le_succ _
  | some modified => exact Assoc.length_insert_le _ _ _

/-- A look-up is counted exactly if there is a time of the file. -/
theorem Lookup.counts (h : Lookup cache fs path answer after) :
    after.hits + after.misses = cache.hits + cache.misses + (fs.reaches path).toNat := by
  cases h with
  | unresolved hplace => rw [FileSystem.reaches_of_error hplace]; rfl
  | gone hplace hgone => rw [FileSystem.reaches_of_ok hplace, hgone]; rfl
  | unreachable hplace hreason => rw [FileSystem.reaches_of_ok hplace, hreason]; rfl
  | hit hplace hfound =>
      rw [FileSystem.reaches_of_ok hplace, hfound]
      exact Nat.add_right_comm _ _ _
  | failed hplace hfound => rw [FileSystem.reaches_of_ok hplace, hfound]; rfl
  | loaded hplace hfound =>
      rw [(counts_store _ _ _ _).1, (counts_store _ _ _ _).2, FileSystem.reaches_of_ok hplace,
        hfound]
      rfl

/-- A look-up that adds an entry counts a miss. -/
theorem Lookup.size_le_misses (h : Lookup cache fs path answer after)
    (hsize : cache.size ≤ cache.misses) : after.size ≤ after.misses := by
  cases h with
  | unresolved => exact hsize
  | gone => exact (List.length_filter_le _ _).trans hsize
  | unreachable => exact hsize
  | hit => exact hsize
  | failed => exact hsize.trans (Nat.le_succ _)
  | loaded =>
      rw [(counts_store _ _ _ _).2]
      exact (size_store_le _ _ _ _).trans (Nat.succ_le_succ hsize)

end

/-- The entries of a cache after a look-up that failed: the same as before, but for that of the
path's own file if it does not exist. -/
def KeepsEntries (cache : KeyCache) (fs : FileSystem) (path : Path) (after : KeyCache) : Prop :=
  after.entries = cache.entries ∨ ∃ place, fs.resolve? path = .ok place ∧
    fs.locate (Path.ofAbsolute place) = .error (.os .notFound) ∧
    after.entries = Assoc.erase place cache.entries

/-- A look-up that fails adds and replaces nothing. -/
theorem Lookup.keepsEntries {cache after : KeyCache} {fs : FileSystem} {path : Path} {e : LoadError}
    (h : Lookup cache fs path (.error e) after) : KeepsEntries cache fs path after := by
  cases h with
  | unresolved => exact Or.inl rfl
  | gone hplace hgone => exact Or.inr ⟨_, hplace, hgone, rfl⟩
  | unreachable => exact Or.inl rfl
  | failed => exact Or.inl rfl

end KeyCache

/-! ## Runs -/

namespace CacheEvent

/-- The files after an event. -/
def filesAfter (fs : FileSystem) : CacheEvent → FileSystem
  | .change next => next
  | _ => fs

/-- Whether an event is a look-up that gets as far as the time of its file. -/
def isCounted (fs : FileSystem) : CacheEvent → Bool
  | .get path => fs.reaches path
  | _ => false

/-- Whether an event resets the counts. -/
def isClear : CacheEvent → Bool
  | .clear => true
  | _ => false

/-- The events that happen to some files, each with the files as they are then. -/
def moments (fs : FileSystem) : List CacheEvent → List (FileSystem × CacheEvent)
  | [] => []
  | event :: rest => (fs, event) :: moments (event.filesAfter fs) rest

/-- The look-ups since the last reset that get as far as the time of their file. -/
def countedLookups (fs : FileSystem) (events : List CacheEvent) : Nat :=
  ((moments fs events).reverse.takeWhile fun moment => !moment.2.isClear).countP
    fun moment => moment.2.isCounted moment.1

theorem moments_concat (fs : FileSystem) (events : List CacheEvent) (event : CacheEvent) :
    moments fs (events ++ [event])
      = moments fs events ++ [(events.foldl filesAfter fs, event)] := by
  induction events generalizing fs with
  | nil => rfl
  | cons first rest ih =>
      rw [List.cons_append, moments, moments, ih]
      rfl

theorem countedLookups_concat (fs : FileSystem) (events : List CacheEvent) (event : CacheEvent) :
    countedLookups fs (events ++ [event]) =
      if event.isClear then 0
      else countedLookups fs events + (event.isCounted (events.foldl filesAfter fs)).toNat := by
  unfold countedLookups
  rw [moments_concat, List.reverse_append, List.reverse_singleton, List.singleton_append,
    List.takeWhile_cons]
  cases event.isClear with
  | true => rfl
  | false =>
      rw [Bool.not_false, if_pos rfl, if_neg Bool.false_ne_true, List.countP_cons]
      cases event.isCounted (events.foldl filesAfter fs) <;> rfl

end CacheEvent

namespace CacheRun

open CacheEvent

theorem files_step [Json.Limits] (run : CacheRun) (event : CacheEvent) :
    (run.step event).files = event.filesAfter run.files := by
  cases event with
  | change fs => rfl
  | get path => rfl
  | invalidate path =>
      unfold step
      dsimp only
      cases run.cache.invalidate run.files path <;> rfl
  | clear => rfl

theorem files_after [Json.Limits] (run : CacheRun) (events : List CacheEvent) :
    (run.after events).files = events.foldl filesAfter run.files := by
  induction events generalizing run with
  | nil => rfl
  | cons event rest ih =>
      unfold after at ih ⊢
      rw [List.foldl_cons, List.foldl_cons, ih, files_step]

/-- What an event does to the counts. -/
theorem counts_step [Json.Limits] (run : CacheRun) (event : CacheEvent) :
    (run.step event).cache.hits + (run.step event).cache.misses =
      if event.isClear then 0
      else run.cache.hits + run.cache.misses + (event.isCounted run.files).toNat := by
  cases event with
  | change fs => rfl
  | get path => exact (KeyCache.lookup_get run.cache run.files path).counts
  | invalidate path =>
      unfold step KeyCache.invalidate
      dsimp only
      cases run.files.resolve? path <;> rfl
  | clear => rfl

theorem size_le_misses_step [Json.Limits] {run : CacheRun} (h : run.cache.size ≤ run.cache.misses)
    (event : CacheEvent) : (run.step event).cache.size ≤ (run.step event).cache.misses := by
  cases event with
  | change fs => exact h
  | get path => exact (KeyCache.lookup_get run.cache run.files path).size_le_misses h
  | invalidate path =>
      unfold step KeyCache.invalidate
      dsimp only
      cases run.files.resolve? path with
      | error fault => exact h
      | ok place => exact (List.length_filter_le _ _).trans h
  | clear => exact Nat.le_refl 0

theorem after_concat [Json.Limits] (run : CacheRun) (events : List CacheEvent)
    (event : CacheEvent) :
    run.after (events ++ [event]) = (run.after events).step event := by
  unfold after
  rw [List.foldl_append]
  rfl

theorem counts_after [Json.Limits] (fs : FileSystem) (events : List CacheEvent) :
    ((CacheRun.mk fs [] {}).after events).cache.hits
      + ((CacheRun.mk fs [] {}).after events).cache.misses = countedLookups fs events := by
  induction events using List.reverseRecOn with
  | nil => rfl
  | append_singleton events event ih =>
      rw [after_concat, counts_step, countedLookups_concat, ih, files_after]

theorem size_le_misses_after [Json.Limits] {run : CacheRun} (h : run.cache.size ≤ run.cache.misses)
    (events : List CacheEvent) :
    (run.after events).cache.size ≤ (run.after events).cache.misses := by
  induction events generalizing run with
  | nil => exact h
  | cons event rest ih => exact ih (size_le_misses_step h event)

/-- After any run the hits and misses add up to the look-ups since the last reset whose file could
be asked for its time, there are no more entries than misses, and a look-up that fails then leaves
the entries alone, but for that of its own path if the file does not exist. -/
theorem accounts_run [Json.Limits] (fs : FileSystem) (events : List CacheEvent) :
    let run := (CacheRun.mk fs [] {}).after events
    run.cache.hits + run.cache.misses = countedLookups fs events ∧
      run.cache.size ≤ run.cache.misses ∧
      ∀ path e, (run.cache.get run.files path).1 = .error e →
        run.cache.KeepsEntries run.files path (run.cache.get run.files path).2 := by
  intro run
  have hnew : (CacheRun.mk fs [] {}).cache.size ≤ (CacheRun.mk fs [] {}).cache.misses :=
    Nat.le_refl 0
  refine ⟨counts_after fs events, size_le_misses_after hnew events, ?_⟩
  intro path e herror
  have hlookup := run.cache.lookup_get run.files path
  rw [herror] at hlookup
  exact hlookup.keepsEntries

theorem exists_error_of_isOk {ε α : Type} {answer : Except ε α} (h : answer.isOk = false) :
    ∃ e, answer = .error e := by
  cases answer with
  | error e => exact ⟨e, rfl⟩
  | ok value => contradiction

section

open scoped Usual

/-- A document is loaded, found in the cache, and broken: the load that fails is a miss that leaves
the entry.  Once the document is gone, the next look-up is not counted and takes the entry out. -/
theorem accounts_run_broken :
    let document := Path.ofText "en.json"
    let events := [.get document, .get document, .change (oneDocument [0xff] 1), .get document,
      .change { workingDirectory := [], entries := [] }]
    let run := (CacheRun.mk (oneDocument [0x7b, 0x7d] 0) [] {}).after events
    countedLookups (oneDocument [0x7b, 0x7d] 0) events = 3 ∧
      run.cache.hits + run.cache.misses = 3 ∧ run.cache.misses = 2 ∧ run.cache.size = 1 ∧
      (run.cache.get run.files document).2.size = 0 ∧
      run.cache.KeepsEntries run.files document (run.cache.get run.files document).2 := by
  intro document events run
  obtain ⟨hcounts, -, hkeeps⟩ := accounts_run (oneDocument [0x7b, 0x7d] 0) events
  have hlookups : countedLookups (oneDocument [0x7b, 0x7d] 0) events = 3 := by decide +kernel
  obtain ⟨e, hfails⟩ := exists_error_of_isOk
    (show (run.cache.get run.files document).1.isOk = false by decide +kernel)
  exact ⟨hlookups, hcounts.trans hlookups, by decide +kernel, by decide +kernel,
    by decide +kernel, hkeeps document e hfails⟩

end

end CacheRun

end MessageKeys
