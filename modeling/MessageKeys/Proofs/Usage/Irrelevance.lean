import MessageKeys.Proofs.Project.Requests
import MessageKeys.Proofs.Usage.Extension
import MessageKeys.Proofs.Usage.Resuming

/-!
# Irrelevant files

A file that does not import the hook makes no translators.  If it changes no import either, it makes
no difference at all, whatever it contains and wherever among the files it is added
(`Resolver.resolve_of_irrelevant`).

The resolutions of the project with and without the file are compared step by step.  They look at
nodes of the smaller project only, since what is found from such a node lies in the smaller project
again (`Project.among_of_callee?`).  So both expand the same stacks of translators in the same way
(`Resolver.Extends.expandAll_eq`), and in the larger project the one further file is passed over.
-/

namespace MessageKeys

open Syntax

/-! ## Two resolutions side by side -/

namespace Resolver

namespace Extends

variable {r larger : Resolver} {space : Option Text} {t : Translator} {trace : Trace}

/-- A stack of translators of the smaller project is used up in the same way in both. -/
theorem expandAll_eq (h : r.Extends larger) {possible possible' : List TranslatorKey}
    {stack : List Translator}
    (hpossible : ∀ t : Translator, r.project.Holds t.site → t.space = space → t.key ∈ possible)
    (hpossible' : ∀ t : Translator, r.project.Holds t.site → t.space = space → t.key ∈ possible')
    (hstack : ∀ t ∈ stack, r.project.Holds t.site ∧ t.space = space) :
    larger.expandAll possible' stack trace = r.expandAll possible stack trace := by
  fun_induction Resolver.expandAll r possible stack trace with
  | case1 trace => rw [Resolver.expandAll]
  | case2 trace t rest hmarked ih =>
      rw [Resolver.expandAll, if_pos hmarked]
      apply ih
      intro s hs
      exact hstack s (List.mem_cons_of_mem t hs)
  | case3 trace t rest hfresh _ ih =>
      obtain ⟨ht, hspace⟩ := hstack t List.mem_cons_self
      rw [Resolver.expandAll, if_neg hfresh, if_pos (hpossible' t ht hspace), h.forwarded_eq ht,
        h.expandOne_eq]
      apply ih
      intro s hs
      rcases List.mem_append.mp hs with hs | hs
      · obtain ⟨hholds, hsame⟩ := of_mem_forwarded h.project.coherent ht hs
        exact ⟨hholds, hsame.trans hspace⟩
      · exact hstack s (List.mem_cons_of_mem t hs)
  | case4 trace t rest _ himpossible ih =>
      obtain ⟨ht, hspace⟩ := hstack t List.mem_cons_self
      exact absurd (hpossible t ht hspace) himpossible

theorem expand_eq (h : r.Extends larger) (ht : r.project.Holds t.site) (trace : Trace) :
    larger.expand t trace = r.expand t trace := by
  have hpossible : ∀ s : Translator, r.project.Holds s.site → s.space = t.space →
      s.key ∈ r.sites t := fun s hs hspace => key_mem_sites hs hspace
  unfold expand
  apply h.expandAll_eq hpossible
  · intro s hs hspace
    exact key_mem_sites (h.project.holds hs) hspace
  · intro s hs
    rw [List.mem_singleton.mp hs]
    exact ⟨ht, rfl⟩

theorem hookTranslators_eq (h : r.Extends larger) {unit : SourceUnit}
    (hunit : unit ∈ r.project.units) (trace : Trace) :
    larger.hookTranslators unit trace = r.hookTranslators unit trace := by
  unfold hookTranslators
  rw [h.hookCalls_eq]
  apply List.foldl_ext
  rintro ⟨scanned, found⟩ call hcall
  dsimp only
  rw [h.scanHookCall_eq ((mem_hookCalls hunit).mp hcall).1.holds]

/-- A file of the smaller project is resolved in the same way in both. -/
theorem resolveUnit_eq (h : r.Extends larger) {unit : SourceUnit} (hunit : unit ∈ r.project.units)
    (trace : Trace) : larger.resolveUnit trace unit = r.resolveUnit trace unit := by
  unfold resolveUnit
  rw [h.hookTranslators_eq hunit]
  apply List.foldl_ext
  intro before t ht
  exact h.expand_eq (((run_hookTranslators hunit trace).2 t ht).holds h.project.coherent) before

theorem foldl_resolveUnit_eq (h : r.Extends larger) {units : List SourceUnit}
    (hunits : units ⊆ r.project.units) (trace : Trace) :
    units.foldl larger.resolveUnit trace = units.foldl r.resolveUnit trace := by
  apply List.foldl_ext
  intro before unit hunit
  exact h.resolveUnit_eq (hunits hunit) before

/-- One file without hook calls makes no difference. -/
theorem resolve_eq (h : r.Extends larger) {front back : List SourceUnit} {extra : SourceUnit}
    (hsmall : r.project.units = front ++ back)
    (hlarge : larger.project.units = front ++ extra :: back)
    (hnone : larger.hookCalls extra = []) (trace : Trace) :
    larger.resolve trace = r.resolve trace := by
  have hfront : front ⊆ r.project.units := hsmall ▸ List.subset_append_left front back
  have hback : back ⊆ r.project.units := hsmall ▸ List.subset_append_right front back
  have hskip : ∀ before, larger.resolveUnit before extra = before := by
    intro before
    apply resolveUnit_of_marked
    rw [hnone]
    exact nofun
  calc larger.resolve trace
      = back.foldl larger.resolveUnit
          (larger.resolveUnit (front.foldl larger.resolveUnit trace) extra) := by
        rw [resolve, hlarge, List.foldl_append, List.foldl_cons]
    _ = back.foldl larger.resolveUnit (front.foldl larger.resolveUnit trace) := by rw [hskip]
    _ = back.foldl r.resolveUnit (front.foldl r.resolveUnit trace) := by
        rw [h.foldl_resolveUnit_eq hfront, h.foldl_resolveUnit_eq hback]
    _ = r.resolve trace := by rw [resolve, hsmall, List.foldl_append]

end Extends

/-! ## One file more -/

theorem hookCalls_eq_nil {r : Resolver} {unit : SourceUnit} (h : r.hookNames unit = ∅) :
    r.hookCalls unit = [] := by
  unfold hookCalls
  rw [List.filter_eq_nil_iff, h]
  intro c _ hcall
  unfold isHookCall at hcall
  split at hcall
  · simp at hcall
  · simp at hcall

end Resolver

namespace Project

/-- A file with a new path is put between the other files, which keep their order. -/
theorem modules_ofUnits_insert (root : Option Text) {before after : List SourceUnit}
    {extra : SourceUnit} (hnew : ∀ unit ∈ before ++ after,
      PathName.normalize unit.path ≠ PathName.normalize extra.path) :
    ∃ front back, (ofUnits root (before ++ after)).modules = front ++ back ∧
      (ofUnits root (before ++ extra :: after)).modules =
        front ++ (PathName.normalize extra.path, ⟨extra, ScopeIndex.ofUnit extra⟩) :: back := by
  induction after using List.reverseRecOn with
  | nil =>
      refine ⟨(ofUnits root before).modules, [], by simp, ?_⟩
      rw [ofUnits_concat]
      apply Assoc.insert_of_not_mem
      rw [names_ofUnits, List.mem_eraseDups]
      intro hmem
      obtain ⟨unit, hunit, hpath⟩ := List.mem_map.mp hmem
      exact hnew unit (List.mem_append_left _ hunit) hpath
  | append_singleton after unit ih =>
      obtain ⟨front, back, hsmall, hlarge⟩ := ih fun other hother => by
        apply hnew
        rw [← List.append_assoc]
        exact List.mem_append_left _ hother
      let entry : Text × Module := (PathName.normalize extra.path, ⟨extra, ScopeIndex.ofUnit extra⟩)
      have hentry : entry.1 ≠ PathName.normalize unit.path := Ne.symm (hnew unit (by simp))
      obtain ⟨front', back', hsmall', hlarge'⟩ :=
        Assoc.insert_append_cons hentry ⟨unit, ScopeIndex.ofUnit unit⟩ front back
      refine ⟨front', back', ?_, ?_⟩
      · rw [← List.append_assoc, ofUnits_concat, add, hsmall]
        exact hsmall'
      · rw [← List.cons_append, ← List.append_assoc, ofUnits_concat, add, hlarge]
        exact hlarge'

theorem units_ofUnits_insert (root : Option Text) {before after : List SourceUnit}
    {extra : SourceUnit} (hpath : (ofUnits root (before ++ after)).get? extra.path = none) :
    ∃ front back, (ofUnits root (before ++ after)).units = front ++ back ∧
      (ofUnits root (before ++ extra :: after)).units = front ++ extra :: back := by
  have hnew : ∀ unit ∈ before ++ after,
      PathName.normalize unit.path ≠ PathName.normalize extra.path := by
    intro unit hunit
    unfold get? at hpath
    rw [stored?_ofUnits] at hpath
    simpa using List.find?_eq_none.mp hpath unit (List.mem_reverse.mpr hunit)
  obtain ⟨front, back, hsmall, hlarge⟩ := modules_ofUnits_insert root hnew
  refine ⟨front.map fun entry => entry.2.unit, back.map fun entry => entry.2.unit, ?_, ?_⟩
  · rw [units, hsmall, List.map_append]
  · rw [units, hlarge, List.map_append, List.map_cons]

end Project

namespace Resolver

/-- A file under a new path that has no name for the hook does not change what resolving finds, at
whatever place it is added, if every import of the other files leads where it led before. -/
theorem resolve_of_irrelevant (root : Option Text) (config : HookConfig)
    (before after : List SourceUnit) (extra : SourceUnit)
    (hpath : (Project.ofUnits root (before ++ after)).get? extra.path = none)
    (hnames : hookNames ⟨Project.ofUnits root (before ++ after), config⟩ extra = ∅)
    (himports : ∀ unit ∈ (Project.ofUnits root (before ++ after)).units, ∀ binding ∈ unit.imports,
      (Project.ofUnits root (before ++ extra :: after)).resolveModule? unit binding.module =
        (Project.ofUnits root (before ++ after)).resolveModule? unit binding.module)
    (trace : Trace) :
    resolve ⟨Project.ofUnits root (before ++ extra :: after), config⟩ trace =
      resolve ⟨Project.ofUnits root (before ++ after), config⟩ trace := by
  obtain ⟨front, back, hsmall, hlarge⟩ := Project.units_ofUnits_insert root hpath
  have hsubset : (Project.ofUnits root (before ++ after)).units ⊆
      (Project.ofUnits root (before ++ extra :: after)).units := by
    rw [hsmall, hlarge]
    intro unit hunit
    rcases List.mem_append.mp hunit with hunit | hunit
    · exact List.mem_append_left _ hunit
    · exact List.mem_append_right _ (List.mem_cons_of_mem extra hunit)
  have hextends : Extends ⟨Project.ofUnits root (before ++ after), config⟩
      ⟨Project.ofUnits root (before ++ extra :: after), config⟩ :=
    ⟨rfl, Project.coherent_ofUnits _ _, Project.coherent_ofUnits _ _, hsubset, himports⟩
  have hnone : hookCalls ⟨Project.ofUnits root (before ++ extra :: after), config⟩ extra = [] := by
    rw [hextends.hookCalls_eq]
    exact hookCalls_eq_nil hnames
  exact hextends.resolve_eq hsmall hlarge hnone trace

/-- The file `import{useTranslations}from"next-intl";import{show}from"./show";` that goes on with
`show(useTranslations("home"));`. -/
def importing : SourceUnit :=
  let node (kind : Kind) (start stop : Nat) (field : Option Field) (children : List Node) : Node :=
    .mk ⟨kind, true, false, start, stop, ⟨0, start⟩, field⟩ children
  let name (start stop : Nat) (field : Option Field) := node .identifier start stop field []
  let quoted (start stop : Nat) (field : Option Field) := node .string start stop field
    [node .stringFragment (start + 1) (stop - 1) none []]
  let imported (start stop nameStop sourceStart : Nat) := node .importStatement start stop none
    [node .importClause (start + 6) (nameStop + 1) none
      [node .namedImports (start + 6) (nameStop + 1) none
        [node .importSpecifier (start + 7) nameStop none [name (start + 7) nameStop (some .name)]]],
      quoted sourceStart (stop - 1) (some .source)]
  { path := "page.ts"
    source := ("import{useTranslations}from\"next-intl\";import{show}from\"./show\";" ++
      "show(useTranslations(\"home\"));").toUTF8.data
    root := node .program 0 94 none
      [imported 0 39 22 27, imported 39 64 50 55,
        node (.other "expression_statement") 64 94 none
          [node .callExpression 64 93 none
            [name 64 68 (some .function),
              node .arguments 68 93 (some .arguments)
                [node .callExpression 69 92 none
                  [name 69 84 (some .function),
                    node .arguments 84 92 (some .arguments) [quoted 85 91 none]]]]]] }

/-- The file `export const show=t=>t("title");`. -/
def exporting : SourceUnit :=
  let node (kind : Kind) (start stop : Nat) (field : Option Field) (children : List Node) : Node :=
    .mk ⟨kind, true, false, start, stop, ⟨0, start⟩, field⟩ children
  let name (start stop : Nat) (field : Option Field) := node .identifier start stop field []
  { path := "show.ts"
    source := "export const show=t=>t(\"title\");".toUTF8.data
    root := node .program 0 32 none
      [node .exportStatement 0 32 none
        [node .lexicalDeclaration 7 32 (some .declaration)
          [node .variableDeclarator 13 31 none
            [name 13 17 (some .name),
              node .arrowFunction 18 31 (some .value)
                [name 18 19 (some .parameter),
                  node .callExpression 21 31 (some .body)
                    [name 21 22 (some .function),
                      node .arguments 22 31 (some .arguments)
                        [node .string 23 30 none [node .stringFragment 24 29 none []]]]]]]]] }

/-- The file `greeting` calls a hook that it does not import, and declares a function `show` of its
own.  It makes no difference between two files of which one imports the function `show` of the other
and hands a translator to it. -/
theorem resolve_of_irrelevant_greeting :
    let small := Project.ofUnits none ([importing] ++ [exporting])
    let large := Project.ofUnits none ([importing] ++ greeting :: [exporting])
    (small.get? greeting.path = none ∧ hookNames ⟨small, {}⟩ greeting = ∅ ∧
      ∀ unit ∈ small.units, ∀ binding ∈ unit.imports,
        large.resolveModule? unit binding.module = small.resolveModule? unit binding.module) ∧
    (hookCalls ⟨small, {}⟩ importing ≠ [] ∧
      large.resolveModule? importing "./show" = some exporting) ∧
    resolve ⟨large, {}⟩ {} = resolve ⟨small, {}⟩ {} := by
  intro small large
  have hpath : small.get? greeting.path = none := by decide +kernel
  have hnames : hookNames ⟨small, {}⟩ greeting = ∅ := rfl
  have himports : ∀ unit ∈ small.units, ∀ binding ∈ unit.imports,
      large.resolveModule? unit binding.module = small.resolveModule? unit binding.module := by
    decide +kernel
  exact ⟨⟨hpath, hnames, himports⟩, ⟨by decide +kernel, by decide +kernel⟩,
    resolve_of_irrelevant none {} [importing] [exporting] greeting hpath hnames himports {}⟩

end Resolver

end MessageKeys
