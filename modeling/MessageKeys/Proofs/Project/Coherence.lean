import MessageKeys.Project.Basic
import MessageKeys.Proofs.Assoc

/-!
# Coherence of a project

A project is built by adding files.  Whatever is added, in whatever order, every file is
stored once, under the normal form of its path and together with its own index
(`Project.coherent_ofUnits`).  So the index of a file is a function of the file
(`Coherent.index_eq`), two files of a project are the same if their paths are
(`Coherent.unit_eq`), and an import leads to a file of the project.
-/

namespace MessageKeys

open Syntax

namespace Project

/-- Every file is stored once, under the normal form of its path and with its index. -/
structure Coherent (project : Project) : Prop where
  nodup : (Assoc.names project.modules).Nodup
  stored : ∀ entry ∈ project.modules, entry.1 = PathName.normalize entry.2.unit.path
  indexed : ∀ entry ∈ project.modules, entry.2.index = ScopeIndex.ofUnit entry.2.unit

theorem coherent_empty (root : Option Text) : (empty root).Coherent where
  nodup := List.nodup_nil
  stored := by simp [empty]
  indexed := by simp [empty]

theorem Coherent.add {project : Project} (h : project.Coherent) (unit : SourceUnit) :
    (project.add unit).Coherent where
  nodup := Assoc.nodup_names_insert h.nodup
  stored := by
    intro entry hentry
    rcases Assoc.mem_of_mem_insert hentry with rfl | hentry
    · rfl
    · exact h.stored entry hentry
  indexed := by
    intro entry hentry
    rcases Assoc.mem_of_mem_insert hentry with rfl | hentry
    · rfl
    · exact h.indexed entry hentry

/-- Adding files one after the other makes a coherent project. -/
theorem coherent_ofUnits (root : Option Text) (units : List SourceUnit) :
    (ofUnits root units).Coherent := by
  have hfold : ∀ (units : List SourceUnit) (project : Project), project.Coherent →
      (units.foldl Project.add project).Coherent := by
    intro units
    induction units with
    | nil => exact fun _ h => h
    | cons unit rest ih => exact fun project h => ih (project.add unit) (h.add unit)
  exact hfold units (empty root) (coherent_empty root)

theorem mem_units {project : Project} {unit : SourceUnit} :
    unit ∈ project.units ↔ ∃ entry ∈ project.modules, entry.2.unit = unit :=
  List.mem_map

theorem mem_units_add {project : Project} {unit other : SourceUnit}
    (h : other ∈ (project.add unit).units) : other = unit ∨ other ∈ project.units := by
  obtain ⟨entry, hentry, rfl⟩ := mem_units.mp h
  rcases Assoc.mem_of_mem_insert hentry with rfl | hentry
  · exact Or.inl rfl
  · exact Or.inr (mem_units.mpr ⟨entry, hentry, rfl⟩)

theorem mem_units_of_stored? {project : Project} {path : Text} {unit : SourceUnit}
    (h : project.stored? path = some unit) : unit ∈ project.units := by
  obtain ⟨module, hmodule, rfl⟩ := Option.map_eq_some_iff.mp h
  exact mem_units.mpr ⟨_, Assoc.mem_of_get? hmodule, rfl⟩

/-- An import leads to a file of the project. -/
theorem mem_units_of_resolveModule? {project : Project} {unit target : SourceUnit}
    {specifier : Text} (h : project.resolveModule? unit specifier = some target) :
    target ∈ project.units := by
  unfold resolveModule? at h
  split at h
  · obtain ⟨path, _, hstored⟩ := List.exists_of_findSome?_eq_some h
    exact mem_units_of_stored? hstored
  · simp at h

namespace Coherent

variable {project : Project}

/-- The index of a file depends on the file alone. -/
theorem index_eq (h : project.Coherent) (unit : SourceUnit) :
    project.index unit = ScopeIndex.ofUnit unit := by
  unfold index
  split
  · rename_i module hmodule
    split
    · rename_i hunit
      rw [h.indexed _ (Assoc.mem_of_get? hmodule), hunit]
    · rfl
  · rfl

/-- Files of one project with the same path are the same file. -/
theorem unit_eq (h : project.Coherent) {unit other : SourceUnit} (hunit : unit ∈ project.units)
    (hother : other ∈ project.units) (hpath : unit.path = other.path) : unit = other := by
  obtain ⟨entry, hentry, rfl⟩ := mem_units.mp hunit
  obtain ⟨entry', hentry', rfl⟩ := mem_units.mp hother
  have hname : entry.1 = entry'.1 := by
    rw [h.stored entry hentry, h.stored entry' hentry', hpath]
  rw [List.inj_on_of_nodup_map h.nodup hentry hentry' hname]

end Coherent

end Project

end MessageKeys
