import MessageKeys.Proofs.Usage.Reachability

/-!
# Larger projects

A project may hold further files beside those of another one.  If the imports of the common files
lead to the same files in both, then what a node of the smaller project refers to is found alike:
its declaration, what it imports and the function it calls (`Project.KeepsImports.callee?_eq`).  So
a step of a resolution that starts in the smaller project does the same in both
(`Resolver.Extends.scanHookCall_eq`, `Resolver.Extends.expandOne_eq`), and what the smaller project
reaches the larger one reaches too (`Resolver.Extends.reaches`).
-/

namespace MessageKeys

open Syntax Cursor

/-! ## Imports that lead to the same files -/

namespace Project

/-- The larger project holds the files of the smaller one, and the imports of these lead to the same
files in both. -/
structure KeepsImports (project larger : Project) : Prop where
  coherent : project.Coherent
  larger_coherent : larger.Coherent
  units_subset : project.units ⊆ larger.units
  imports : ∀ unit ∈ project.units, ∀ binding ∈ unit.imports,
    larger.resolveModule? unit binding.module = project.resolveModule? unit binding.module

namespace KeepsImports

variable {project larger : Project}

theorem holds (h : project.KeepsImports larger) {c : Cursor} (hc : project.Holds c) :
    larger.Holds c :=
  ⟨h.units_subset hc.1, hc.2⟩

theorem index_eq (h : project.KeepsImports larger) (unit : SourceUnit) :
    larger.index unit = project.index unit := by
  rw [h.larger_coherent.index_eq, h.coherent.index_eq]

theorem imported?_eq (h : project.KeepsImports larger) {binding : Cursor}
    (hbinding : binding.unit ∈ project.units) :
    Callee.imported? larger binding = Callee.imported? project binding := by
  unfold Callee.imported?
  split
  · rename_i found hfound
    rw [h.imports _ hbinding found (List.mem_of_find?_eq_some hfound)]
  · rfl

theorem exported?_eq (h : project.KeepsImports larger) (target : SourceUnit) (name : Text) :
    Callee.exported? larger target name = Callee.exported? project target name := by
  unfold Callee.exported?
  rw [h.index_eq]

/-- A name in the smaller project stands for the same function in both. -/
theorem named?_eq (h : project.KeepsImports larger) {name : Cursor} (hname : project.Holds name) :
    Callee.named? larger name = Callee.named? project name := by
  unfold Callee.named?
  rw [h.index_eq]
  cases hbinding : (project.index name.unit).declarationOf? name with
  | none => rfl
  | some binding =>
      have hholds := hname.declarationOf? h.coherent hbinding
      simp only [h.imported?_eq hholds.1, h.exported?_eq]

theorem member?_eq (h : project.KeepsImports larger) {access : Cursor}
    (haccess : project.Holds access) :
    Callee.member? larger access = Callee.member? project access := by
  unfold Callee.member?
  split
  · rename_i receiver name hreceiver _
    rw [h.index_eq]
    cases hdeclaration : (project.index receiver.unit).declarationOf? receiver with
    | none => rfl
    | some declaration =>
        have hholds := (haccess.child? hreceiver).declarationOf? h.coherent hdeclaration
        simp only [h.imported?_eq hholds.1, h.exported?_eq]
  · rfl

/-- A call in the smaller project invokes the same function in both. -/
theorem callee?_eq (h : project.KeepsImports larger) {call : Cursor} (hcall : project.Holds call) :
    larger.callee? call = project.callee? call := by
  unfold callee?
  cases hcallee : call.child? .function with
  | none => rfl
  | some callee =>
      have hholds := hcall.child? hcallee
      simp only [h.named?_eq hholds, h.member?_eq hholds]

end KeepsImports

end Project

/-! ## Translators of a larger project -/

namespace Resolver

/-- The two resolvers look for the same hook, one of them in a larger project. -/
structure Extends (r larger : Resolver) : Prop where
  config : larger.config = r.config
  project : r.project.KeepsImports larger.project

namespace Extends

variable {r larger : Resolver} {call : Cursor} {space : Option Text} {t : Translator}

theorem forward_eq (h : r.Extends larger) {use : ReferenceUse}
    (huse : ∀ call, use.call? = some call → r.project.Holds call) :
    larger.forward space use = r.forward space use := by
  cases use with
  | direct call => rfl
  | ignored => rfl
  | positional call index => simp only [forward, h.project.callee?_eq (huse call rfl)]
  | property call index name => simp only [forward, h.project.callee?_eq (huse call rfl)]

/-- A node of the smaller project is handed on to the same parameters in both. -/
theorem forward_classify_eq (h : r.Extends larger) {n : Cursor} (hn : r.project.Holds n) :
    larger.forward space (ReferenceUse.classify n) = r.forward space (ReferenceUse.classify n) := by
  apply h.forward_eq
  intro call hcall
  exact hn.of_mem_lineage (ReferenceUse.of_classify hcall).1

theorem uses_eq (h : r.Extends larger) (t : Translator) : larger.uses t = r.uses t := by
  unfold uses
  rw [h.project.index_eq]

theorem forwarded_eq (h : r.Extends larger) (ht : r.project.Holds t.site) :
    larger.forwarded t = r.forwarded t := by
  unfold forwarded
  rw [h.uses_eq]
  apply List.flatMap_congr
  intro use huse
  obtain ⟨n, hn, rfl⟩ := List.mem_map.mp huse
  exact h.forward_classify_eq (among_of_mem_references h.project.coherent ht.1 hn)

theorem expandOne_eq (h : r.Extends larger) (t : Translator) (trace : Trace) :
    larger.expandOne t trace = r.expandOne t trace := by
  unfold expandOne recordUses
  rw [h.uses_eq, h.config]

theorem scanHookCall_eq (h : r.Extends larger) (hcall : r.project.Holds call)
    (trace : Trace) : larger.scanHookCall trace call = r.scanHookCall trace call := by
  have hforward : ∀ space, larger.forward space (ReferenceUse.classify call) =
      r.forward space (ReferenceUse.classify call) := fun space => h.forward_classify_eq hcall
  unfold scanHookCall bindHookCall
  rw [h.config]
  cases hclassify : ReferenceUse.classify call with
  | direct outer => rfl
  | positional outer index =>
      rw [hclassify] at hforward
      simp only [hforward]
  | property outer index name =>
      rw [hclassify] at hforward
      simp only [hforward]
  | ignored => rfl

theorem hookNames_eq (h : r.Extends larger) (unit : SourceUnit) :
    larger.hookNames unit = r.hookNames unit := by
  unfold hookNames
  rw [h.config]

theorem hookCalls_eq (h : r.Extends larger) (unit : SourceUnit) :
    larger.hookCalls unit = r.hookCalls unit := by
  unfold hookCalls
  rw [h.hookNames_eq]

/-- A hook call of the smaller project is one of the larger. -/
theorem hookCall (h : r.Extends larger) (hcall : r.HookCall call) : larger.HookCall call where
  unit_mem := h.project.units_subset hcall.unit_mem
  mem_cursors := hcall.mem_cursors
  kind := hcall.kind
  callee := by
    rw [h.hookNames_eq]
    exact hcall.callee

theorem starts (h : r.Extends larger) (hcall : r.HookCall call) (hstarts : r.Starts call space t) :
    larger.Starts call space t := by
  cases hstarts with
  | declared hparent hkind hvalue hname hplain =>
      exact .declared hparent hkind hvalue hname hplain
  | handed hforward =>
      apply Starts.handed
      rw [h.forward_classify_eq hcall.holds]
      exact hforward

/-- A translator of the smaller project is one of the larger. -/
theorem reaches (h : r.Extends larger) (ht : r.Reaches t) : larger.Reaches t := by
  induction ht with
  | start hcall hspace hstarts => exact .start (h.hookCall hcall) hspace (h.starts hcall hstarts)
  | forward hs hn hforward ih =>
      have hholds := among_of_mem_references h.project.coherent (hs.holds h.project.coherent).1 hn
      rw [← h.project.index_eq] at hn
      rw [← h.forward_classify_eq hholds] at hforward
      exact .forward ih hn hforward

end Extends

end Resolver

end MessageKeys
