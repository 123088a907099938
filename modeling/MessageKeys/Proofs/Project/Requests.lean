import Mathlib.Data.List.Induction
import MessageKeys.Project.Workspace
import MessageKeys.Proofs.Project.Coherence

/-!
# Requests to a workspace

Files are added to a workspace, looked up and asked for their indexes, in any order and under any
spelling of their paths.  What a workspace answers depends on the added files alone
(`Workspace.answers_run`):

* the files are listed by the first appearance of their normal paths, and the last file that was
  added under a path stands there (`Project.names_ofUnits`, `Project.stored?_ofUnits`);
* an index is always that of the file it is asked for.

The second rests on one invariant of the indexes at hand, `Workspace.Genuine`: each is what building
it anew would give for the file that it names.  It says nothing about which file that is, since a
request for a file that was replaced leaves the index of this file under the common path.
-/

namespace MessageKeys

open Syntax

/-! ## The files of a project -/

namespace Project

/-- The last of some files that has a normal path. -/
def lastAt? (units : List SourceUnit) (path : Text) : Option SourceUnit :=
  units.reverse.find? fun unit => decide (PathName.normalize unit.path = path)

theorem lastAt?_concat (units : List SourceUnit) (unit : SourceUnit) (path : Text) :
    lastAt? (units ++ [unit]) path =
      if PathName.normalize unit.path = path then some unit else lastAt? units path := by
  unfold lastAt?
  rw [List.reverse_append, List.reverse_singleton, List.singleton_append, List.find?_cons]
  by_cases h : PathName.normalize unit.path = path
  · rw [if_pos h, decide_eq_true h]
  · rw [if_neg h, decide_eq_false h]

theorem ofUnits_concat (root : Option Text) (units : List SourceUnit) (unit : SourceUnit) :
    ofUnits root (units ++ [unit]) = (ofUnits root units).add unit := by
  unfold ofUnits
  rw [List.foldl_append]
  rfl

theorem stored?_add (project : Project) (unit : SourceUnit) (path : Text) :
    (project.add unit).stored? path =
      if PathName.normalize unit.path = path then some unit else project.stored? path := by
  unfold stored? add
  by_cases h : PathName.normalize unit.path = path
  · rw [if_pos h, ← h, Assoc.get?_insert_self]
    rfl
  · rw [if_neg h, Assoc.get?_insert_of_ne (Ne.symm h)]

/-- Under a path stands the file that was added there last. -/
theorem stored?_ofUnits (root : Option Text) (units : List SourceUnit) (path : Text) :
    (ofUnits root units).stored? path = lastAt? units path := by
  induction units using List.reverseRecOn with
  | nil => rfl
  | append_singleton units unit ih =>
      rw [ofUnits_concat, stored?_add, lastAt?_concat, ih]

theorem eraseDups_concat_of_mem {α : Type} [BEq α] [LawfulBEq α] {items : List α} {item : α}
    (h : item ∈ items) : (items ++ [item]).eraseDups = items.eraseDups := by
  have hnone : [item].removeAll items = [] := by simp [List.removeAll, h]
  rw [List.eraseDups_append, hnone, List.eraseDups_nil, List.append_nil]

theorem eraseDups_concat_of_not_mem {α : Type} [BEq α] [LawfulBEq α] {items : List α} {item : α}
    (h : item ∉ items) : (items ++ [item]).eraseDups = items.eraseDups ++ [item] := by
  have hone : [item].removeAll items = [item] := by simp [List.removeAll, h]
  rw [List.eraseDups_append, hone, List.eraseDups_cons, List.filter_nil, List.eraseDups_nil]

/-- The paths of a project are those of its files, each where it came up first. -/
theorem names_ofUnits (root : Option Text) (units : List SourceUnit) :
    Assoc.names (ofUnits root units).modules =
      (units.map fun unit => PathName.normalize unit.path).eraseDups := by
  induction units using List.reverseRecOn with
  | nil => rfl
  | append_singleton units unit ih =>
      rw [ofUnits_concat, add, Assoc.names_insert, ih, List.map_append, List.map_singleton]
      by_cases h : PathName.normalize unit.path ∈ units.map fun unit => PathName.normalize unit.path
      · rw [if_pos (List.mem_eraseDups.mpr h), eraseDups_concat_of_mem h]
      · rw [if_neg (mt List.mem_eraseDups.mp h), eraseDups_concat_of_not_mem h]

theorem Coherent.paths_eq {project : Project} (h : project.Coherent) :
    project.units.map (fun unit => PathName.normalize unit.path) = Assoc.names project.modules := by
  unfold units Assoc.names
  rw [List.map_map]
  apply List.map_congr_left
  intro entry hentry
  exact (h.stored entry hentry).symm

theorem Coherent.stored?_of_mem_units {project : Project} (h : project.Coherent)
    {unit : SourceUnit} (hunit : unit ∈ project.units) :
    project.stored? (PathName.normalize unit.path) = some unit := by
  obtain ⟨⟨path, module⟩, hentry, rfl⟩ := mem_units.mp hunit
  have hfound : Assoc.get? path project.modules = some module :=
    (Assoc.get?_eq_some_iff h.nodup).mpr hentry
  unfold stored?
  rw [← h.stored _ hentry, hfound]
  rfl

end Project

/-! ## The indexes at hand -/

/-- What can be asked of a workspace. -/
inductive Request where
  | add (unit : SourceUnit)
  | get (path : Text)
  | index (unit : SourceUnit)

/-- The files that requests add, first to last. -/
def Request.added (requests : List Request) : List SourceUnit :=
  requests.filterMap fun request =>
    match request with
    | .add unit => some unit
    | .get _ | .index _ => none

namespace Workspace

/-- The workspace after a request. -/
def step (workspace : Workspace) : Request → Workspace
  | .add unit => workspace.add unit
  | .get _ => workspace
  | .index unit => (workspace.index unit).2

/-- The workspace after some requests, first to last. -/
def run (root : Option Text) (requests : List Request) : Workspace :=
  requests.foldl step (empty root)

/-- Every index at hand is the index of the file it names. -/
def Genuine (workspace : Workspace) : Prop :=
  ∀ entry ∈ workspace.indexes, entry.2 = ScopeIndex.ofUnit entry.2.unit

/-- A request for an index takes the one at hand, if it is of this very file, or builds one and
keeps it. -/
theorem index_cases (workspace : Workspace) (unit : SourceUnit) :
    (∃ found, (PathName.normalize unit.path, found) ∈ workspace.indexes ∧ found.unit = unit ∧
        workspace.index unit = (found, workspace)) ∨
      workspace.index unit = (ScopeIndex.ofUnit unit, { workspace with
        indexes := Assoc.insert (PathName.normalize unit.path) (ScopeIndex.ofUnit unit)
          workspace.indexes }) := by
  unfold index
  dsimp only
  split
  · rename_i found hfound
    by_cases hunit : found.unit = unit
    · rw [if_pos hunit]
      exact Or.inl ⟨found, Assoc.mem_of_get? hfound, hunit, rfl⟩
    · rw [if_neg hunit]
      exact Or.inr rfl
  · exact Or.inr rfl

theorem index_of_genuine {workspace : Workspace} (h : workspace.Genuine) (unit : SourceUnit) :
    (workspace.index unit).1 = ScopeIndex.ofUnit unit := by
  rcases workspace.index_cases unit with ⟨found, hfound, hunit, heq⟩ | heq
  · rw [heq, ← hunit]
    exact h _ hfound
  · rw [heq]

theorem genuine_index {workspace : Workspace} (h : workspace.Genuine) (unit : SourceUnit) :
    (workspace.index unit).2.Genuine := by
  rcases workspace.index_cases unit with ⟨found, -, -, heq⟩ | heq
  · rw [heq]
    exact h
  · rw [heq]
    intro entry hentry
    rcases Assoc.mem_of_mem_insert hentry with rfl | hentry
    · rfl
    · exact h entry hentry

theorem genuine_step {workspace : Workspace} (h : workspace.Genuine) (request : Request) :
    (workspace.step request).Genuine := by
  cases request with
  | add unit =>
      intro entry hentry
      exact h entry (List.mem_of_mem_filter hentry)
  | get path => exact h
  | index unit => exact genuine_index h unit

theorem genuine_run (root : Option Text) (requests : List Request) :
    (run root requests).Genuine := by
  refine List.foldlRecOn (motive := Genuine) requests step ?_ ?_
  · intro entry hentry
    exact absurd hentry List.not_mem_nil
  · intro workspace h request _
    exact genuine_step h request

theorem project_index (workspace : Workspace) (unit : SourceUnit) :
    (workspace.index unit).2.project = workspace.project := by
  rcases workspace.index_cases unit with ⟨found, -, -, heq⟩ | heq
  · rw [heq]
  · rw [heq]

/-- Only the added files make a difference to the project. -/
theorem project_run (root : Option Text) (requests : List Request) :
    (run root requests).project = Project.ofUnits root (Request.added requests) := by
  induction requests using List.reverseRecOn with
  | nil => rfl
  | append_singleton requests request ih =>
      have hstep : run root (requests ++ [request]) = (run root requests).step request := by
        unfold run
        rw [List.foldl_append]
        rfl
      have hadded : Request.added (requests ++ [request]) =
          Request.added requests ++ Request.added [request] := List.filterMap_append
      rw [hstep, hadded]
      cases request with
      | add unit =>
          have hunit : Request.added [.add unit] = [unit] := rfl
          rw [hunit, Project.ofUnits_concat, ← ih]
          rfl
      | get path =>
          have hnone : Request.added [.get path] = [] := rfl
          rw [hnone, List.append_nil]
          exact ih
      | index unit =>
          have hnone : Request.added [.index unit] = [] := rfl
          rw [hnone, List.append_nil]
          exact (project_index _ unit).trans ih

/-- After any requests a workspace lists one file for each normal path, in the order in which the
paths came up first, and always the file that was added last.  It finds this file under every
spelling of the path, and it answers a request for the index of any file, replaced ones included,
with the index of that file. -/
theorem answers_run (root : Option Text) (requests : List Request) :
    let workspace := run root requests
    let added := Request.added requests
    (workspace.units.map (fun unit => PathName.normalize unit.path) =
        (added.map fun unit => PathName.normalize unit.path).eraseDups ∧
      ∀ unit ∈ workspace.units,
        Project.lastAt? added (PathName.normalize unit.path) = some unit) ∧
    (∀ path, workspace.get? path = Project.lastAt? added (PathName.normalize path)) ∧
    ∀ unit, (workspace.index unit).1 = ScopeIndex.ofUnit unit ∧
      workspace.project.index unit = ScopeIndex.ofUnit unit := by
  intro workspace added
  have hproject : workspace.project = Project.ofUnits root added := project_run root requests
  have hcoherent : workspace.project.Coherent := by
    rw [hproject]
    exact Project.coherent_ofUnits root added
  have hstored : ∀ path, workspace.project.stored? path = Project.lastAt? added path := by
    intro path
    rw [hproject, Project.stored?_ofUnits]
  refine ⟨⟨?_, ?_⟩, ?_, ?_⟩
  · unfold units
    rw [hcoherent.paths_eq, hproject, Project.names_ofUnits]
  · intro unit hunit
    rw [← hstored]
    exact hcoherent.stored?_of_mem_units hunit
  · intro path
    exact hstored (PathName.normalize path)
  · intro unit
    exact ⟨index_of_genuine (genuine_run root requests) unit, hcoherent.index_eq unit⟩

end Workspace

end MessageKeys
