import Mathlib.Data.List.Permutation
import Mathlib.Data.List.TakeWhile
import MessageKeys.Proofs.Messages.Pruning

/-!
# Isolation of documents

The documents of a directory are isolated from each other if pruning them reports and writes for
each what it would with the others away (`Isolated`).  This holds exactly if no document ends the
run (`isolated_iff`); otherwise the run is isolated up to the first document that ends it and
leaves what comes after alone.

The documents that end a run are those whose bytes are not UTF-8, those with a number or a nesting
that is beyond reading, those that stay too deep to be written, and those that keep a lone
surrogate, which has no bytes to be written, in a file that can be opened (`EndsPruning`).  Text
that is just not a document never does, nor does a file that cannot be written.
-/

namespace MessageKeys

namespace FileSystem

/-! ## A document by itself -/

/-- A file system without the files beside the one that a path leads to. -/
def only (fs : FileSystem) (path : Path) : FileSystem :=
  match fs.locate path with
  | .ok (place, _) =>
      { fs with
        entries := fs.entries.filter fun (other, entry) =>
          entry.isDirectory || other.dropLast ≠ place.dropLast || other = place }
  | .error _ => fs

section

variable {fs : FileSystem} {path : Path} {place : AbsolutePath} {f : File}

theorem entries_only (h : fs.locate path = .ok (place, .file f)) :
    (fs.only path).entries = fs.entries.filter fun (other, entry) =>
      entry.isDirectory || other.dropLast ≠ place.dropLast || other = place := by
  unfold only
  rw [h]

theorem workingDirectory_only (fs : FileSystem) (path : Path) :
    (fs.only path).workingDirectory = fs.workingDirectory := by
  unfold only
  split <;> rfl

theorem links_only (fs : FileSystem) (path : Path) : (fs.only path).links = fs.links := by
  unfold only
  split <;> rfl

theorem fault?_only (fs : FileSystem) (path : Path) (place : AbsolutePath) :
    (fs.only path).fault? place = fs.fault? place := by
  unfold only
  split <;> rfl

theorem WellFormed.only (hfs : fs.WellFormed) (h : fs.locate path = .ok (place, .file f)) :
    (fs.only path).WellFormed := by
  have hsub : (Assoc.names (fs.only path).entries).Sublist (Assoc.names fs.entries) := by
    rw [entries_only h]
    exact List.filter_sublist.map Prod.fst
  refine ⟨?_, hfs.distinct.sublist hsub, ?_, ?_⟩
  · rw [links_only]
    exact hfs.unlinked
  · exact fun other hother => hfs.keepable other (hsub.subset hother)
  · rw [workingDirectory_only]
    exact hfs.working

/-- What is still there when the files beside a file are gone. -/
theorem entry?_only (hfs : fs.WellFormed) (h : fs.locate path = .ok (place, .file f))
    {other : AbsolutePath} (hother : other ≠ []) {entry : Entry} :
    FileSystem.entry? (fs.only path) other = some entry ↔ fs.entry? other = some entry ∧
      (entry.isDirectory = true ∨ other.dropLast ≠ place.dropLast ∨ other = place) := by
  rw [entry?_eq_some_iff (hfs.only h) hother, entry?_eq_some_iff hfs hother, entries_only h,
    List.mem_filter]
  simp only [Bool.or_eq_true, decide_eq_true_eq, or_assoc]

theorem keepsDirectories_only (hfs : fs.WellFormed) (h : fs.locate path = .ok (place, .file f)) :
    KeepsDirectories fs (fs.only path) := by
  refine ⟨workingDirectory_only fs path, links_only fs path, fun other hfile => ?_⟩
  by_cases hroot : other = []
  · subst hroot
    rfl
  · ext entry
    rw [entry?_only hfs h hroot]
    refine ⟨And.left, fun hentry => ⟨hentry, Or.inl ?_⟩⟩
    cases entry with
    | directory given => rfl
    | file g => exact absurd hentry (hfile g)

end

section

variable {fs : FileSystem} {directory : Path} {place : AbsolutePath} {name : Text}

/-- With the other files away a document is the only one of its directory. -/
theorem documentNames_only (hsite : fs.Site directory place (fs.documentNames place))
    (hname : name ∈ fs.documentNames place) :
    (fs.only (directory.child name)).documentNames place = [name] := by
  obtain ⟨hdocument, -, f, hf⟩ := hsite.documents name hname
  have hlocate := hsite.locate hname hf
  have hwf := hsite.wellFormed.only hlocate
  apply KeySet.eq_of_mem_iff (pairwise_documentNames hwf place) (List.pairwise_singleton _ _)
  intro other
  rw [mem_documentNames hwf, List.mem_singleton]
  constructor
  · rintro ⟨-, g, hg⟩
    rw [entry?_only hsite.wellFormed hlocate (by simp)] at hg
    rcases hg.2 with hdirectory | hparent | heq
    · contradiction
    · simp at hparent
    · simpa using heq
  · rintro rfl
    refine ⟨hdocument, f, ?_⟩
    rw [entry?_only hsite.wellFormed hlocate (by simp)]
    exact ⟨hf, Or.inr (Or.inr rfl)⟩

theorem namesIn_only_subset (fs : FileSystem) (path : Path) (place : AbsolutePath) :
    (fs.only path).namesIn place ⊆ fs.namesIn place := by
  intro name hname
  obtain ⟨other, hother, hin⟩ := List.mem_filterMap.mp hname
  refine List.mem_filterMap.mpr ⟨other, ?_, hin⟩
  rw [links_only] at hother
  refine (List.mem_append.mp hother).elim (fun hentry => List.mem_append_left _ ?_)
    (List.mem_append_right _)
  unfold only at hentry
  split at hentry
  · exact (List.filter_sublist.map Prod.fst).subset hentry
  · exact hentry

/-- Pruning a document by itself gives the verdict on it. -/
theorem prune_only [Json.Limits] [Locale.Catalogue] (hfs : fs.WellFormed) {given : Option Int}
    (hlocate : fs.locate directory = .ok (place, .directory given)) {paths : List Path}
    (hpaths : fs.documents? directory = .ok (some paths)) (keys : KeySet)
    (hname : name ∈ fs.documentNames place) {f : File}
    (hf : fs.entry? (place ++ [name]) = some (.file f)) :
    let alone := (fs.only (directory.child name)).prune directory keys
    let verdict := Pruning.verdictAt keys.toList directory place fs name
    alone.outcomes = verdict.outcome?.toList ∧ alone.stopped = verdict.stopped ∧
      alone.files.readFile (directory.child name) = .ok (verdict.file f) := by
  intro alone verdict
  obtain ⟨hsite, -⟩ := site_of_documents? hfs hlocate hpaths
  have hfile := hsite.locate hname hf
  have hlocate' := (keepsDirectories_only hfs hfile).locate hlocate
  have hentry : FileSystem.entry? (fs.only (directory.child name)) (place ++ [name])
      = some (.file f) := by
    rw [entry?_only hfs hfile (by simp)]
    exact ⟨hf, Or.inr (Or.inr rfl)⟩
  have hpaths' : (fs.only (directory.child name)).documents? directory
      = .ok (some [directory.child name]) := by
    obtain ⟨place', given', hplace', hlong, -⟩ := documents?_eq_some_iff.mp hpaths
    obtain rfl : place = place' := (Prod.mk.inj (Except.ok.inj (hlocate.symm.trans hplace'))).1
    refine documents?_eq_some_iff.mpr ⟨place, given, hlocate', fun other hother => ?_, ?_⟩
    · exact hlong other (namesIn_only_subset fs _ place hother)
    · rw [documentNames_only hsite hname]
      rfl
  have hprunes : Pruning.Prunes (fun _ => true) keys.toList directory place
      (fs.only (directory.child name)) [name]
      { files := fs.only (directory.child name) } alone := by
    rw [← documentNames_only hsite hname]
    exact prunes_pruneWhile (hfs.only hfile) hlocate' hpaths' _ keys
  have hverdict : Pruning.verdictAt keys.toList directory place
      (fs.only (directory.child name)) name = verdict := by
    unfold verdict Pruning.verdictAt
    rw [Pruning.contentAt_of_file hentry, Pruning.contentAt_of_file hf, fault?_only]
  have hreached : ∀ goesOn, Pruning.reached goesOn [name] = [name] := by simp [Pruning.reached]
  refine ⟨?_, ?_, ?_⟩
  · rw [hprunes.outcomes, hreached, List.flatMap_singleton, hverdict]
    rfl
  · rw [hprunes.stopped, hreached, List.findSome?_cons, hverdict]
    cases verdict.stopped <;> rfl
  · have hafter := hprunes.file name (by simp [hreached]) f hentry
    rw [hverdict] at hafter
    have hsame := outline_pruneWhile (fun _ => true) (fs.only (directory.child name)) directory keys
    have halone := (site_of_documents? (hfs.only hfile) hlocate' hpaths').1
    rw [documentNames_only hsite hname] at halone
    have hnew := locate_file_of_outline hsame (halone.locate List.mem_cons_self hentry) hafter
    exact readFile_of_locate hnew

end

end FileSystem

/-! ## Documents in turn -/

namespace FileSystem

section

variable [Json.Limits] [Locale.Catalogue]

/-- Pruning some documents is as pruning each of them by itself, up to the first at which it
stops. -/
structure PrunedInTurn (fs : FileSystem) (directory : Path) (keys : KeySet) (paths : List Path) :
    Prop where
  outcomes : (fs.prune directory keys).outcomes =
    (paths.takeWhile fun path => ((fs.only path).prune directory keys).stopped.isNone).flatMap
      fun path => ((fs.only path).prune directory keys).outcomes
  stopped : (fs.prune directory keys).stopped =
    paths.findSome? fun path => ((fs.only path).prune directory keys).stopped
  files : ∀ before path after, paths = before ++ path :: after →
    (fs.prune directory keys).files.readFile path =
      if before.all fun other => ((fs.only other).prune directory keys).stopped.isNone then
        ((fs.only path).prune directory keys).files.readFile path
      else fs.readFile path

/-- Pruning some documents comes to an end, reports each of them once and in order, and reports
and writes for each what it would with the others away. -/
structure Isolated (fs : FileSystem) (directory : Path) (keys : KeySet) (paths : List Path) :
    Prop where
  completes : (fs.prune directory keys).stopped = none
  reported : (fs.prune directory keys).outcomes.map PruneOutcome.path = paths
  outcomes : (fs.prune directory keys).outcomes =
    paths.flatMap fun path => ((fs.only path).prune directory keys).outcomes
  files : ∀ path ∈ paths, (fs.prune directory keys).files.readFile path =
    ((fs.only path).prune directory keys).files.readFile path

section

variable {fs : FileSystem} {directory : Path} {place : AbsolutePath} {given : Option Int}
  {paths : List Path}

theorem stopped_prune (hfs : fs.WellFormed)
    (hlocate : fs.locate directory = .ok (place, .directory given))
    (hpaths : fs.documents? directory = .ok (some paths)) (keys : KeySet) :
    (fs.prune directory keys).stopped = (fs.documentNames place).findSome?
      fun name => (Pruning.verdictAt keys.toList directory place fs name).stopped := by
  refine (prunes_pruneWhile hfs hlocate hpaths _ keys).stopped.trans
    (Pruning.findSome?_reached fun name hname hpass => ?_)
  rwa [Pruning.passes_of_all, Option.isNone_eq_false_iff, Option.isSome_iff_ne_none] at hpass

theorem outcomes_prune (hfs : fs.WellFormed)
    (hlocate : fs.locate directory = .ok (place, .directory given))
    (hpaths : fs.documents? directory = .ok (some paths)) (keys : KeySet) :
    (fs.prune directory keys).outcomes = ((fs.documentNames place).takeWhile fun name =>
        (Pruning.verdictAt keys.toList directory place fs name).stopped.isNone).flatMap
      fun name => (Pruning.verdictAt keys.toList directory place fs name).outcome?.toList := by
  have hsite := (site_of_documents? hfs hlocate hpaths).1
  have hpasses := Pruning.passes_of_all keys.toList directory place fs
  refine (prunes_pruneWhile hfs hlocate hpaths _ keys).outcomes.trans ?_
  rw [Pruning.flatMap_reached, funext hpasses]
  · rfl
  -- the document at which the run stops has no outcome
  intro name hname hpass
  obtain ⟨-, -, f, hf⟩ := hsite.documents name hname
  rw [hpasses, Option.isNone_eq_false_iff, Option.isSome_iff_ne_none] at hpass
  rw [(Pruning.judged_verdictAt hf).outcome?.2 hpass]
  rfl

theorem prunedInTurn (hfs : fs.WellFormed)
    (hlocate : fs.locate directory = .ok (place, .directory given))
    (hpaths : fs.documents? directory = .ok (some paths)) (keys : KeySet) :
    PrunedInTurn fs directory keys paths := by
  have hprunes : Pruning.Prunes _ keys.toList directory place fs (fs.documentNames place)
      { files := fs } (fs.prune directory keys) := prunes_pruneWhile hfs hlocate hpaths _ keys
  have houtcomes := outcomes_prune hfs hlocate hpaths keys
  have hstopped := stopped_prune hfs hlocate hpaths keys
  obtain ⟨hsite, rfl⟩ := site_of_documents? hfs hlocate hpaths
  have halone : ∀ name ∈ fs.documentNames place,
      (((fs.only (directory.child name)).prune directory keys).stopped,
        ((fs.only (directory.child name)).prune directory keys).outcomes)
      = ((Pruning.verdictAt keys.toList directory place fs name).stopped,
        (Pruning.verdictAt keys.toList directory place fs name).outcome?.toList) := by
    intro name hname
    obtain ⟨-, -, f, hf⟩ := hsite.documents name hname
    obtain ⟨houtcomes, hstopped, -⟩ := prune_only hfs hlocate hpaths keys hname hf
    rw [houtcomes, hstopped]
  have hresults := List.map_congr_left halone
  refine ⟨?_, ?_, ?_⟩
  · calc (fs.prune directory keys).outcomes
      _ = (((fs.documentNames place).map fun name =>
            ((Pruning.verdictAt keys.toList directory place fs name).stopped,
              (Pruning.verdictAt keys.toList directory place fs name).outcome?.toList)).takeWhile
                fun result => result.1.isNone).flatMap Prod.snd := by
          rw [List.takeWhile_map, List.flatMap_map]
          exact houtcomes
      _ = _ := by
          rw [← hresults, List.takeWhile_map, List.flatMap_map, List.takeWhile_map,
            List.flatMap_map]
          rfl
  · calc (fs.prune directory keys).stopped
      _ = ((fs.documentNames place).map fun name =>
            ((Pruning.verdictAt keys.toList directory place fs name).stopped,
              (Pruning.verdictAt keys.toList directory place fs name).outcome?.toList)).findSome?
                Prod.fst := by
          rw [List.findSome?_map]
          exact hstopped
      _ = _ := by
          rw [← hresults, List.findSome?_map, List.findSome?_map]
          rfl
  · intro before path after heq
    obtain ⟨earlier, rest, hnames, rfl, hrest⟩ := List.map_eq_append_iff.mp heq
    obtain ⟨name, later, rfl, rfl, rfl⟩ := List.map_eq_cons_iff.mp hrest
    have hname : name ∈ fs.documentNames place := by simp [hnames]
    obtain ⟨-, -, f, hf⟩ := hsite.documents name hname
    obtain ⟨-, -, hread⟩ := prune_only hfs hlocate hpaths keys hname hf
    have hreached : name ∈ Pruning.reached
        (Pruning.passes keys.toList directory place fs · fun _ => true) (fs.documentNames place) ↔
        ((earlier.map directory.child).all fun other =>
          ((fs.only other).prune directory keys).stopped.isNone) = true := by
      have hnodup := nodup_documentNames hfs place
      rw [hnames] at hnodup ⊢
      rw [Pruning.mem_reached_iff hnodup, List.all_map, List.all_eq_true]
      refine forall₂_congr fun other hother => ?_
      have hmem : other ∈ fs.documentNames place := by simp [hnames, hother]
      rw [Pruning.passes_of_all, ← (Prod.mk.inj (halone other hmem)).1]
      rfl
    have hfile := hsite.locate hname hf
    have hsame := outline_pruneWhile (fun _ => true) fs directory keys
    by_cases hmem : name ∈ Pruning.reached
        (Pruning.passes keys.toList directory place fs · fun _ => true) (fs.documentNames place)
    · rw [if_pos (hreached.mp hmem), hread]
      exact readFile_of_locate (locate_file_of_outline hsame hfile (hprunes.file name hmem f hf))
    · rw [if_neg (mt hreached.mpr hmem), readFile_of_locate hfile]
      exact readFile_of_locate (locate_file_of_outline hsame hfile ((hprunes.kept hmem).trans hf))

/-- A document by itself has one outcome, unless pruning stops at it. -/
theorem outcomes_prune_only (hfs : fs.WellFormed)
    (hlocate : fs.locate directory = .ok (place, .directory given))
    (hpaths : fs.documents? directory = .ok (some paths)) (keys : KeySet) :
    ∀ path ∈ paths, ((fs.only path).prune directory keys).stopped = none →
      ((fs.only path).prune directory keys).outcomes.map PruneOutcome.path = [path] := by
  obtain ⟨hsite, rfl⟩ := site_of_documents? hfs hlocate hpaths
  intro path hpath hstopped
  obtain ⟨name, hname, rfl⟩ := List.mem_map.mp hpath
  obtain ⟨-, -, f, hf⟩ := hsite.documents name hname
  obtain ⟨houtcomes, hstopped', -⟩ := prune_only hfs hlocate hpaths keys hname hf
  obtain ⟨outcome, houtcome, hnamed⟩ :=
    (Pruning.judged_verdictAt hf).outcome?.1 (hstopped'.symm.trans hstopped)
  rw [houtcomes, houtcome, Option.toList_some, List.map_singleton, hnamed]

/-- Pruning a document by itself stops exactly at content that ends a run. -/
theorem stopped_prune_only (hfs : fs.WellFormed)
    (hlocate : fs.locate directory = .ok (place, .directory given))
    (hpaths : fs.documents? directory = .ok (some paths)) (keys : KeySet) :
    ∀ path ∈ paths, ∃ spot f, fs.locate path = .ok (spot, .file f) ∧
      (((fs.only path).prune directory keys).stopped ≠ none ↔
        EndsPruning keys.toList (fs.fault? spot) f.content) := by
  obtain ⟨hsite, rfl⟩ := site_of_documents? hfs hlocate hpaths
  intro path hpath
  obtain ⟨name, hname, rfl⟩ := List.mem_map.mp hpath
  obtain ⟨-, -, f, hf⟩ := hsite.documents name hname
  obtain ⟨-, hstopped, -⟩ := prune_only hfs hlocate hpaths keys hname hf
  refine ⟨place ++ [name], f, hsite.locate hname hf, ?_⟩
  rw [hstopped]
  exact (Pruning.judged_verdictAt hf).stopped_iff

theorem PrunedInTurn.isolated_iff_completes {keys : KeySet}
    (h : PrunedInTurn fs directory keys paths)
    (hone : ∀ path ∈ paths, ((fs.only path).prune directory keys).stopped = none →
      ((fs.only path).prune directory keys).outcomes.map PruneOutcome.path = [path]) :
    Isolated fs directory keys paths ↔
      ∀ path ∈ paths, ((fs.only path).prune directory keys).stopped = none := by
  constructor
  · intro hisolated
    rw [← List.findSome?_eq_none_iff, ← h.stopped]
    exact hisolated.completes
  · intro hnone
    have houtcomes : (fs.prune directory keys).outcomes =
        paths.flatMap fun path => ((fs.only path).prune directory keys).outcomes := by
      rw [h.outcomes, List.takeWhile_eq_self_iff.mpr]
      intro path hpath
      rw [hnone path hpath]
      rfl
    refine ⟨?_, ?_, houtcomes, ?_⟩
    · rw [h.stopped, List.findSome?_eq_none_iff]
      exact hnone
    · calc (fs.prune directory keys).outcomes.map PruneOutcome.path
          = paths.flatMap fun path =>
              ((fs.only path).prune directory keys).outcomes.map PruneOutcome.path := by
            rw [houtcomes, List.map_flatMap]
        _ = paths.flatMap fun path => [path] :=
            List.flatMap_congr fun path hpath => hone path hpath (hnone path hpath)
        _ = paths := List.flatMap_singleton' paths
    · intro path hpath
      obtain ⟨before, after, heq⟩ := List.append_of_mem hpath
      rw [h.files before path after heq, if_pos]
      rw [List.all_eq_true]
      intro other hother
      rw [hnone other (by simp [heq, hother])]
      rfl

end

/-- The documents of a directory are its files with a document's name, in the order of the names.
They are pruned in turn, each as by itself, up to the first that ends the run by its content; so
they are isolated from each other exactly if there is none. -/
theorem isolated_iff {fs : FileSystem} (hfs : fs.WellFormed) {text : Text} {place : AbsolutePath}
    {given : Option Int} (hplace : fs.locate (Path.ofText text) = .ok (place, .directory given))
    {paths : List Path} (hpaths : fs.documents? (Path.ofText text) = .ok (some paths))
    (keys : KeySet) :
    (∃ names : List Text, names.Pairwise (· < ·) ∧ paths = names.map (Path.ofText text).child ∧
      ∀ name, name ∈ names ↔
        isDocumentName name = true ∧ ∃ f, fs.entry? (place ++ [name]) = some (.file f)) ∧
    (∀ path ∈ paths, ∃ spot f, fs.locate path = .ok (spot, .file f) ∧
      (((fs.only path).prune (Path.ofText text) keys).stopped ≠ none ↔
        EndsPruning keys.toList (fs.fault? spot) f.content)) ∧
    PrunedInTurn fs (Path.ofText text) keys paths ∧
    (Isolated fs (Path.ofText text) keys paths ↔
      ∀ path ∈ paths, ∀ spot f, fs.locate path = .ok (spot, .file f) →
        ¬EndsPruning keys.toList (fs.fault? spot) f.content) := by
  have hstopped := stopped_prune_only hfs hplace hpaths keys
  have hturn := prunedInTurn hfs hplace hpaths keys
  refine ⟨⟨fs.documentNames place, pairwise_documentNames hfs place,
    (site_of_documents? hfs hplace hpaths).2, fun name => mem_documentNames hfs⟩,
    hstopped, hturn, ?_⟩
  rw [hturn.isolated_iff_completes (outcomes_prune_only hfs hplace hpaths keys)]
  refine forall₂_congr fun path hpath => ?_
  obtain ⟨spot, f, hf, hends⟩ := hstopped path hpath
  rw [hf]
  constructor
  · intro hnone spot' g hg
    obtain ⟨rfl, hentry⟩ := Prod.mk.inj (Except.ok.inj hg)
    rw [← Entry.file.inj hentry, ← hends]
    exact not_not.mpr hnone
  · intro hnot
    exact not_not.mp (mt hends.mp (hnot spot f rfl))

end

/-- A directory with two documents. -/
def twoDocuments (first second : Bytes) : FileSystem where
  workingDirectory := []
  entries := [(["m"], .directory none), (["m", "de.json"], .file ⟨first, 0, default⟩),
    (["m", "en.json"], .file ⟨second, 0, default⟩)]

theorem wellFormed_twoDocuments (first second : Bytes) :
    (twoDocuments first second).WellFormed := by
  apply wellFormed_of_scalars rfl rfl
  · change ([["m"], ["m", "de.json"], ["m", "en.json"]] : List AbsolutePath).Nodup
    decide
  · simp [twoDocuments, Assoc.names, Text.ofString, CodePoint.isSurrogate, CodePoint.ofChar,
      Utf8.encodePoint, nameLimit]

theorem locate_twoDocuments (first second : Bytes) :
    (twoDocuments first second).locate (Path.ofText "m") = .ok (["m"], .directory none) ∧
      (twoDocuments first second).locate ((Path.ofText "m").child "de.json")
        = .ok (["m", "de.json"], .file ⟨first, 0, default⟩) ∧
      (twoDocuments first second).locate ((Path.ofText "m").child "en.json")
        = .ok (["m", "en.json"], .file ⟨second, 0, default⟩) := by
  refine ⟨?_, ?_, ?_⟩
  · cbv
  · cbv
  · cbv

theorem documents?_twoDocuments (first second : Bytes) :
    (twoDocuments first second).documents? (Path.ofText "m")
      = .ok (some [(Path.ofText "m").child "de.json", (Path.ofText "m").child "en.json"]) := by
  refine documents?_eq_some_iff.mpr ⟨_, _, (locate_twoDocuments first second).1, ?_, ?_⟩
  · change ∀ name ∈ (["de.json", "en.json"] : List Text), isDocumentName name = true →
      isOverlong ((Path.ofText "m").child name) = false
    decide +kernel
  · have hnames : (twoDocuments first second).documentNames ["m"] = ["de.json", "en.json"] := by cbv
    rw [hnames]
    rfl

/-- The content of a document with the key `k`. -/
def keyed : Bytes := [0x7b, 0x22, 0x6b, 0x22, 0x3a, 0x22, 0x61, 0x22, 0x7d]

end FileSystem

namespace Usual

/-- A catalogue that holds every locale. -/
scoped instance catalogue : Locale.Catalogue := ⟨fun _ => true⟩

end Usual

namespace FileSystem

section

open scoped Usual

/-- A document that is no object does not keep the next one from being pruned. -/
theorem isolated_beside_array :
    Isolated (twoDocuments [0x5b, 0x5d] keyed) (Path.ofText "m") (KeySet.ofList ["k"])
      [(Path.ofText "m").child "de.json", (Path.ofText "m").child "en.json"] := by
  have hgoesOn : ∀ content ∈ ([[0x5b, 0x5d], keyed] : List Bytes),
      (Pruning.verdict (KeySet.ofList ["k"]).toList none (Path.ofText "m")
        (Document.decode (Path.ofText "m").toText content)).stopped = none := by
    intro content hcontent
    rcases List.mem_pair.mp hcontent with rfl | rfl
    · cbv
    · cbv
  obtain ⟨hdirectory, hfirst, hsecond⟩ := locate_twoDocuments [0x5b, 0x5d] keyed
  refine (isolated_iff (wellFormed_twoDocuments _ _) hdirectory
    (documents?_twoDocuments _ _) _).2.2.2.mpr ?_
  intro path hpath spot f hf hends
  refine (Pruning.judged_verdict _ _ (Path.ofText "m") _).stopped_iff.mpr hends
    (hgoesOn f.content ?_)
  rcases List.mem_pair.mp hpath with rfl | rfl
  · rw [← Entry.file.inj (Prod.mk.inj (Except.ok.inj (hfirst.symm.trans hf))).2]
    exact List.mem_cons_self
  · rw [← Entry.file.inj (Prod.mk.inj (Except.ok.inj (hsecond.symm.trans hf))).2]
    exact List.mem_cons_of_mem _ List.mem_cons_self

/-- Pruning stops at a document that is not UTF-8, and the next one keeps its key. -/
theorem not_isolated_beside_undecodable :
    (twoDocuments [0xff] keyed).documents? (Path.ofText "m")
      = .ok (some [(Path.ofText "m").child "de.json", (Path.ofText "m").child "en.json"]) ∧
    ¬Isolated (twoDocuments [0xff] keyed) (Path.ofText "m") (KeySet.ofList ["k"])
      [(Path.ofText "m").child "de.json", (Path.ofText "m").child "en.json"] := by
  refine ⟨documents?_twoDocuments _ _, fun h => ?_⟩
  have hstopped : ((twoDocuments [0xff] keyed).prune (Path.ofText "m")
      (KeySet.ofList ["k"])).stopped = some (.load .undecodable) := by
    unfold prune pruneWhile
    rw [documents?_twoDocuments]
    cbv
  rw [h.completes] at hstopped
  contradiction

end

end FileSystem

end MessageKeys
