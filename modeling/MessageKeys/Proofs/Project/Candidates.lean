import MessageKeys.Proofs.Files.NormalForms
import MessageKeys.Proofs.Project.Requests

/-!
# The file that an import means

An import is resolved by trying paths one after the other.  A file stands at a path however the path
is spelled (`Project.Loaded`), so the first of the tried paths at which a file stands should decide
(`Project.FindsFirst`).  The paths are looked up as they are, though, while files are kept under the
normal forms of their paths.

The tried paths come from a path in normal form, and nearly all of them are normal again
(`normalize_of_mem_candidates`): an extension only changes the last component to another name, and
an index file is one more component.  The one exception is the index file of the directory that is
called `.`, which is looked up under `./index.ts` and kept under `index.ts`.  So the rule holds
exactly if it does not come to these index files (`resolveModule?_findsFirst_iff`).

If the last component of the path that an import names is a name, it makes no difference whether
the paths are made from the path as written or from its normal form (`map_normalize_candidates`).
-/

namespace MessageKeys

open Syntax PathName

namespace Project

/-- The path that an import names, as it is written. -/
def importPath? (project : Project) (unit : SourceUnit) (specifier : Text) : Option Text :=
  if (Text.ofString ".").isPrefixOf specifier then
    some (join (directory unit.path) specifier)
  else project.root.map fun root => join root specifier

/-- The file belongs to the project and stands at the path. -/
def Loaded (project : Project) (path : Text) (unit : SourceUnit) : Prop :=
  unit ∈ project.units ∧ normalize unit.path = normalize path

/-- What is found at the first of some paths at which a file stands: this file, or nothing if there
is no such path. -/
inductive FindsFirst (project : Project) (paths : List Text) : Option SourceUnit → Prop
  | found {front back : List Text} {path : Text} {unit : SourceUnit}
      (hpaths : paths = front ++ path :: back) (hloaded : project.Loaded path unit)
      (hfront : ∀ other ∈ front, ∀ earlier, ¬ project.Loaded other earlier) :
      FindsFirst project paths (some unit)
  | nothing (hnone : ∀ path ∈ paths, ∀ unit, ¬ project.Loaded path unit) :
      FindsFirst project paths none

/-- The names of index files. -/
def indexNames : List Text :=
  extensions.map (Text.ofString "index" ++ ·)

/-- An import leads to the directory that is called `.`, no file is called so, with or without an
extension, and the directory has an index file. -/
structure MissesIndex (project : Project) (target : Text) : Prop where
  is_here : target = here
  no_file : ∀ path ∈ here :: extensions.map (here ++ ·), ∀ unit, ¬ project.Loaded path unit
  index_file : ∃ index ∈ indexNames, ∃ unit, project.Loaded index unit

/-! ## Files by path -/

namespace Coherent

variable {project : Project} {unit : SourceUnit} {path : Text}

theorem stored?_eq_some_iff (h : project.Coherent) :
    project.stored? path = some unit ↔ unit ∈ project.units ∧ normalize unit.path = path := by
  constructor
  · intro hstored
    obtain ⟨module, hmodule, rfl⟩ := Option.map_eq_some_iff.mp hstored
    exact ⟨mem_units_of_stored? hstored, (h.stored _ (Assoc.mem_of_get? hmodule)).symm⟩
  · rintro ⟨hunit, rfl⟩
    exact h.stored?_of_mem_units hunit

theorem get?_eq_some_iff (h : project.Coherent) :
    project.get? path = some unit ↔ project.Loaded path unit :=
  h.stored?_eq_some_iff

theorem get?_eq_none_iff (h : project.Coherent) :
    project.get? path = none ↔ ∀ unit, ¬ project.Loaded path unit := by
  rw [Option.eq_none_iff_forall_ne_some]
  exact forall_congr' fun unit => not_congr h.get?_eq_some_iff

/-- Nothing is kept under a path that is not in normal form. -/
theorem stored?_eq_none (h : project.Coherent) (hpath : normalize path ≠ path) :
    project.stored? path = none := by
  rw [Option.eq_none_iff_forall_ne_some]
  intro unit hstored
  obtain ⟨_, rfl⟩ := h.stored?_eq_some_iff.mp hstored
  exact hpath (normalize_normalize _)

theorem findsFirst_iff (h : project.Coherent) {paths : List Text} {result : Option SourceUnit} :
    project.FindsFirst paths result ↔ paths.findSome? project.get? = result := by
  constructor
  · rintro (⟨hpaths, hloaded, hfront⟩ | hnone)
    · exact List.findSome?_eq_some_iff.mpr ⟨_, _, _, hpaths, h.get?_eq_some_iff.mpr hloaded,
        fun other hother => h.get?_eq_none_iff.mpr (hfront other hother)⟩
    · exact List.findSome?_eq_none_iff.mpr fun path hpath =>
        h.get?_eq_none_iff.mpr (hnone path hpath)
  · rintro rfl
    cases hfound : paths.findSome? project.get? with
    | none =>
        exact .nothing fun path hpath =>
          h.get?_eq_none_iff.mp (List.findSome?_eq_none_iff.mp hfound path hpath)
    | some unit =>
        obtain ⟨front, path, back, hpaths, hpath, hfront⟩ := List.findSome?_eq_some_iff.mp hfound
        exact .found hpaths (h.get?_eq_some_iff.mp hpath) fun other hother =>
          h.get?_eq_none_iff.mp (hfront other hother)

end Coherent

theorem importTarget?_eq (project : Project) (unit : SourceUnit) (specifier : Text) :
    project.importTarget? unit specifier =
      (project.importPath? unit specifier).map normalize := by
  unfold importTarget? importPath?
  split_ifs
  · rfl
  · rw [Option.map_map]
    rfl

/-! ## The tried paths -/

theorem of_mem_extensions :
    ∀ extension ∈ extensions, 3 ≤ extension.length ∧ slash ∉ extension := by
  decide

/-- A component with an extension is a name, whatever it was before. -/
theorem isName_append_extension {component extension : Text} (hslash : slash ∉ component)
    (hextension : extension ∈ extensions) : IsName (component ++ extension) := by
  obtain ⟨hlength, hnone⟩ := of_mem_extensions extension hextension
  have hlong : 3 ≤ (component ++ extension).length := by
    rw [List.length_append]
    omega
  refine ⟨?_, ?_, ?_, ?_⟩
  · exact List.ne_nil_of_length_pos (by omega)
  · exact fun heq => absurd (heq ▸ hlong) (by decide)
  · exact fun heq => absurd (heq ▸ hlong) (by decide)
  · rw [List.mem_append, not_or]
    exact ⟨hslash, hnone⟩

theorem isName_of_mem_indexNames {name : Text} (h : name ∈ indexNames) : IsName name := by
  obtain ⟨extension, hextension, rfl⟩ := List.mem_map.mp h
  exact isName_append_extension (by decide) hextension

/-- The paths that an import may mean, by the last component of the path that it names. -/
theorem candidates_append {head name : Text} (hhead : IsHead head) (hslash : slash ∉ name) :
    candidates (head ++ name) =
      [head ++ name]
        ++ (if extensions.contains (splitExtension name).2 then
              extensions.map fun extension => head ++ ((splitExtension name).1 ++ extension)
            else [])
        ++ (extensions.map fun extension => head ++ (name ++ extension))
        ++ indexNames.map (join (head ++ name)) := by
  unfold candidates indexNames
  rw [splitExtension_append hhead hslash, List.map_map]
  simp only [List.append_assoc]
  rfl

theorem join_append_name {head component name : Text} (hne : component ≠ [])
    (hslash : slash ∉ component) (hname : IsName name) :
    join (head ++ component) name = head ++ component ++ [slash] ++ name := by
  have hrelative : [slash].isPrefixOf name = false := by
    cases name with
    | nil => rfl
    | cons c rest =>
        have hc : slash ≠ c := fun heq => hname.slash_not_mem (heq ▸ List.mem_cons_self)
        simp [List.isPrefixOf, hc]
  have hlast : component.getLast? ≠ some slash :=
    fun hlast => hslash (List.mem_of_getLast? hlast)
  unfold join
  rw [hrelative, if_neg (by simp), if_neg (by simp [hne, hlast]), List.append_assoc _ [slash]]
  rfl

/-- Of the paths that are tried for a normal path, only the index files of `.` are not normal. -/
theorem normalize_of_mem_candidates {written path : Text} (hne : normalize written ≠ here)
    (h : path ∈ candidates (normalize written)) : normalize path = path := by
  rcases normalize_cases written with
    hhere | hroot | hroot | ⟨head, name, hform, hname, hslash, hindex, hnormal, hwritten⟩
  · exact absurd hhere hne
  · rw [hroot] at h
    revert path
    decide
  · rw [hroot] at h
    revert path
    decide
  · have hhead : IsHead head := hform ▸ isHead_headForm head
    have hother : ∀ {other : Text}, IsName other → normalize (head ++ other) = head ++ other := by
      intro other hother
      rw [normalize_append_name hhead hother, hform]
    rw [hwritten, candidates_append hhead hslash] at h
    simp only [List.mem_append, List.mem_singleton, List.mem_map] at h
    rcases h with ((rfl | h) | ⟨extension, hextension, rfl⟩) | ⟨index, hmem, rfl⟩
    · exact hnormal
    · split_ifs at h
      · obtain ⟨extension, hextension, rfl⟩ := List.mem_map.mp h
        exact hother (isName_append_extension (slash_not_mem_splitExtension hslash) hextension)
      · simp at h
    · exact hother (isName_append_extension hslash hextension)
    · -- an index file is one more component behind the whole path
      have hindexName := isName_of_mem_indexNames hmem
      rw [join_append_name hname hslash hindexName,
        normalize_append_name (Or.inr ⟨_, rfl⟩) hindexName, hindex]

/-- If the last component of a path is a name, the paths that are tried for it and those that are
tried for its normal form have the same normal forms. -/
theorem map_normalize_candidates {written : Text} (h : IsName (base written)) :
    (candidates written).map normalize = candidates (normalize written) := by
  obtain ⟨head, hhead, hslash, hwritten⟩ := exists_head_append_base written
  generalize base written = name at h hslash hwritten
  subst hwritten
  have hsame : ∀ {other : Text}, IsName other →
      normalize (head ++ other) = headForm head ++ other := normalize_append_name hhead
  rw [hsame h, candidates_append hhead hslash, candidates_append (isHead_headForm head) hslash]
  simp only [List.map_append, List.map_map, List.map_cons, List.map_nil, hsame h]
  congr 1
  · congr 1
    · congr 1
      split_ifs
      · rw [List.map_map]
        refine List.map_congr_left fun extension hextension => ?_
        exact hsame (isName_append_extension (slash_not_mem_splitExtension hslash) hextension)
      · rfl
    · exact List.map_congr_left fun extension hextension =>
        hsame (isName_append_extension hslash hextension)
  · refine List.map_congr_left fun index hindex => ?_
    have hname := isName_of_mem_indexNames hindex
    rw [Function.comp_apply, join_append_name h.ne_nil hslash hname,
      join_append_name h.ne_nil hslash hname, normalize_append_name (Or.inr ⟨_, rfl⟩) hname,
      headForm_append_name hhead h]

/-! ## The first file -/

theorem findSome?_get? (project : Project) (paths : List Text) :
    paths.findSome? project.get? = (paths.map normalize).findSome? project.stored? := by
  rw [List.findSome?_map]
  rfl

theorem resolveModule?_eq {project : Project} {unit : SourceUnit} {specifier written : Text}
    (h : project.importPath? unit specifier = some written) :
    project.resolveModule? unit specifier =
      (candidates (normalize written)).findSome? project.stored? := by
  rw [resolveModule?, importTarget?_eq, h]
  rfl

/-- The paths that are tried for `.`: those of files, which are normal, and those of index files. -/
theorem candidates_here :
    candidates here = (here :: extensions.map (here ++ ·)) ++ indexNames.map (join here) := by
  decide

/-- For `.` the index files are never found. -/
theorem findSome?_stored?_here {project : Project} (h : project.Coherent) :
    (candidates here).findSome? project.stored? =
      (here :: extensions.map (here ++ ·)).findSome? project.get? := by
  have hnormal : (here :: extensions.map (here ++ ·)).map normalize =
      here :: extensions.map (here ++ ·) := by
    decide
  have hmissed : ∀ index ∈ indexNames, normalize (join here index) ≠ join here index := by
    decide
  have hnone : (indexNames.map (join here)).findSome? project.stored? = none := by
    refine List.findSome?_eq_none_iff.mpr fun path hpath => ?_
    obtain ⟨index, hindex, rfl⟩ := List.mem_map.mp hpath
    exact h.stored?_eq_none (hmissed index hindex)
  rw [candidates_here, List.findSome?_append, hnone, Option.or_none, findSome?_get?, hnormal]

theorem missesIndex_here_iff {project : Project} (h : project.Coherent) :
    project.MissesIndex here ↔
      (here :: extensions.map (here ++ ·)).findSome? project.get? = none ∧
        (indexNames.map (join here)).findSome? project.get? ≠ none := by
  have hindex : ∀ index ∈ indexNames, normalize (join here index) = normalize index := by decide
  have hget : ∀ index ∈ indexNames, project.get? (join here index) = project.get? index := by
    intro index hmem
    rw [get?, get?, hindex index hmem]
  have hfiles : (here :: extensions.map (here ++ ·)).findSome? project.get? = none ↔
      ∀ path ∈ here :: extensions.map (here ++ ·), ∀ unit, ¬ project.Loaded path unit := by
    rw [List.findSome?_eq_none_iff]
    exact forall₂_congr fun path _ => h.get?_eq_none_iff
  have hindexes : (indexNames.map (join here)).findSome? project.get? = none ↔
      ∀ index ∈ indexNames, ∀ unit, ¬ project.Loaded index unit := by
    rw [List.findSome?_map, List.findSome?_eq_none_iff]
    refine forall₂_congr fun index hmem => ?_
    rw [Function.comp_apply, hget index hmem, h.get?_eq_none_iff]
  rw [hfiles, Ne, hindexes]
  constructor
  · rintro ⟨_, hnone, index, hmem, unit, hloaded⟩
    exact ⟨hnone, fun hall => hall index hmem unit hloaded⟩
  · rintro ⟨hnone, hsome⟩
    push Not at hsome
    exact ⟨rfl, hnone, hsome⟩

/-- An import means the file at the first of the tried paths at which there is one, and nothing if
there is none, exactly if it does not come to the index files of `.`.  If the last component of the
path that it names is a name, the tried paths may as well be taken from the path as written. -/
theorem resolveModule?_findsFirst_iff (root : Option Text) (units : List SourceUnit)
    (unit : SourceUnit) (specifier written : Text)
    (hwritten : (ofUnits root units).importPath? unit specifier = some written) :
    ((ofUnits root units).FindsFirst (candidates (normalize written))
          ((ofUnits root units).resolveModule? unit specifier) ↔
        ¬ (ofUnits root units).MissesIndex (normalize written)) ∧
      (IsName (base written) →
        (ofUnits root units).FindsFirst (candidates written)
          ((ofUnits root units).resolveModule? unit specifier)) := by
  have hproject := coherent_ofUnits root units
  rw [resolveModule?_eq hwritten]
  refine ⟨?_, fun hname => ?_⟩
  · rw [hproject.findsFirst_iff]
    by_cases hhere : normalize written = here
    · -- the two searches differ in the index files only
      rw [hhere, findSome?_stored?_here hproject, missesIndex_here_iff hproject, candidates_here,
        List.findSome?_append]
      cases (here :: extensions.map (here ++ ·)).findSome? (ofUnits root units).get? <;> simp
    · have hall : (candidates (normalize written)).map normalize = candidates (normalize written) :=
        (List.map_congr_left fun path hpath => normalize_of_mem_candidates hhere hpath).trans
          (List.map_id _)
      rw [findSome?_get?, hall]
      exact iff_of_true rfl fun hmisses => hhere hmisses.is_here
  · rw [hproject.findsFirst_iff, findSome?_get?, map_normalize_candidates hname]

/-- A file without content. -/
def blank (path : Text) : SourceUnit :=
  ⟨path, #[], .mk ⟨.program, true, false, 0, 0, ⟨0, 0⟩, none⟩ []⟩

/-- The import of `./lib` in `/app/a.ts` means the index file of the directory. -/
theorem resolveModule?_findsFirst_lib :
    let project := ofUnits none [blank "/app/a.ts", blank "/app/lib/index.ts"]
    project.importPath? (blank "/app/a.ts") "./lib" = some (Text.ofString "/app/./lib") ∧
      project.resolveModule? (blank "/app/a.ts") "./lib" = some (blank "/app/lib/index.ts") ∧
      project.FindsFirst (candidates "/app/lib") (some (blank "/app/lib/index.ts")) ∧
      project.FindsFirst (candidates "/app/./lib") (some (blank "/app/lib/index.ts")) := by
  intro project
  have hpath : project.importPath? (blank "/app/a.ts") "./lib" =
      some (Text.ofString "/app/./lib") := by
    decide
  have hnormal : normalize (Text.ofString "/app/./lib") = Text.ofString "/app/lib" := by decide
  have hresolved : project.resolveModule? (blank "/app/a.ts") "./lib" =
      some (blank "/app/lib/index.ts") := by
    decide +kernel
  obtain ⟨hfirst, hname⟩ := resolveModule?_findsFirst_iff none
    [blank "/app/a.ts", blank "/app/lib/index.ts"] (blank "/app/a.ts") "./lib" "/app/./lib" hpath
  rw [hnormal, hresolved] at hfirst
  rw [hresolved] at hname
  exact ⟨hpath, hresolved, hfirst.mpr fun hmisses => absurd hmisses.is_here (by decide),
    hname ⟨by decide, by decide, by decide, by decide⟩⟩

/-- The import of `.` in `a.ts` misses the index file beside it. -/
theorem not_findsFirst_current_directory :
    let project := ofUnits none [blank "a.ts", blank "index.ts"]
    project.importPath? (blank "a.ts") "." = some here ∧
      project.resolveModule? (blank "a.ts") "." = none ∧
      project.FindsFirst (candidates here) (some (blank "index.ts")) ∧
      ¬ project.FindsFirst (candidates here) none := by
  intro project
  have hproject : project.Coherent := coherent_ofUnits _ _
  have hfirst : (candidates here).findSome? project.get? = some (blank "index.ts") := by
    decide +kernel
  refine ⟨by decide, by decide +kernel, hproject.findsFirst_iff.mpr hfirst, ?_⟩
  rw [hproject.findsFirst_iff, hfirst]
  simp

end Project

end MessageKeys
