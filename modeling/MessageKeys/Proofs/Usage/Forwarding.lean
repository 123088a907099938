import MessageKeys.Proofs.Project.Coherence
import MessageKeys.Proofs.Syntax.References
import MessageKeys.Usage.Resolution

/-!
# Where translators go

Following a name, a call or an import from a node ends in the same file or in a file of the
project.  So the function that a call invokes and the parameters that receive a translator are
nodes of these files (`Resolver.of_mem_forward`), and so are the calls made through it.
What a translator is used for depends on the identity of its node only
(`Resolver.uses_congr`), which is why nodes can be marked by identity.
-/

namespace MessageKeys

open Syntax Cursor

/-! ## Nodes of a project -/

/-- A node of one of some files. -/
def Syntax.Cursor.Among (units : List SourceUnit) (c : Cursor) : Prop :=
  c.unit ∈ units ∧ In c.unit c

namespace Syntax.Cursor.Among

variable {units : List SourceUnit} {project : Project} {c d : Cursor}

theorem of_in {unit : SourceUnit} (hunit : unit ∈ units) (h : In unit c) : Among units c := by
  have heq := h.unit_eq
  exact ⟨heq ▸ hunit, heq ▸ h⟩

theorem mono {more : List SourceUnit} (h : Among units c) (hmore : units ⊆ more) : Among more c :=
  ⟨hmore h.1, h.2⟩

theorem beneath (h : Among units c) (hd : Beneath c d) : Among units d :=
  of_in h.1 (h.2.beneath hd)

theorem child? {field : Field} (h : Among units c) (hd : c.child? field = some d) :
    Among units d :=
  of_in h.1 (h.2.child? hd)

theorem of_mem_lineage (h : Among units c) (hd : d ∈ c.lineage) : Among units d :=
  of_in h.1 (h.2.of_mem_lineage hd)

theorem key_mem_nodeKeys (h : Among units c) : c.key ∈ units.flatMap SourceUnit.nodeKeys :=
  List.mem_flatMap.mpr ⟨c.unit, h.1, h.2.key_mem_nodeKeys⟩

/-- What a name means is a node of the same file. -/
theorem declarationOf? (hproject : project.Coherent) (h : Among units c)
    (hd : (project.index c.unit).declarationOf? c = some d) : Among units d := by
  rw [hproject.index_eq] at hd
  cases hbinding : (ScopeIndex.ofUnit c.unit).isBinding c with
  | true =>
      unfold ScopeIndex.declarationOf? at hd
      rw [hbinding, if_pos rfl] at hd
      exact Option.some.inj hd ▸ h
  | false =>
      obtain ⟨scope, _, hlookup⟩ := ScopeIndex.of_declarationOf? hbinding hd
      obtain ⟨found, hfound, _, _, rfl⟩ := ScopeIndex.of_lookup? hlookup
      exact of_in h.1 (ScopeIndex.binding_in hfound)

end Syntax.Cursor.Among

namespace Project

/-- A node of one of the files of the project. -/
def Holds (project : Project) (c : Cursor) : Prop :=
  c.unit ∈ project.units ∧ In c.unit c

namespace Holds

variable {project : Project} {c d : Cursor}

theorem of_in {unit : SourceUnit} (hunit : unit ∈ project.units) (h : In unit c) :
    project.Holds c :=
  Among.of_in hunit h

theorem child? {field : Field} (h : project.Holds c) (hd : c.child? field = some d) :
    project.Holds d :=
  Among.child? h hd

theorem of_mem_lineage (h : project.Holds c) (hd : d ∈ c.lineage) : project.Holds d :=
  Among.of_mem_lineage h hd

theorem declarationOf? (hproject : project.Coherent) (h : project.Holds c)
    (hd : (project.index c.unit).declarationOf? c = some d) : project.Holds d :=
  Among.declarationOf? hproject h hd

end Holds

end Project

/-! ## The function that a call invokes -/

namespace Callee

variable {project : Project} {units : List SourceUnit} {c f : Cursor}

theorem among_of_bound (h : Among units c) (hf : bound c = .function f) : Among units f := by
  unfold bound at hf
  split at hf
  · simp at hf
  · rename_i parent hparent
    have hamong := h.of_mem_lineage (mem_lineage_of_parent? hparent)
    split at hf
    · -- the name of a function declaration
      exact Bound.function.inj hf ▸ hamong
    · split at hf
      · -- the name of a variable, whose value may be a function
        split at hf
        · rename_i value hvalue
          split at hf
          · exact Bound.function.inj hf ▸ hamong.child? hvalue
          · simp at hf
        · simp at hf
      · simp at hf

theorem beneath_of_memberFunction? {name : Text} (h : memberFunction? c name = some f) :
    Beneath c f := by
  obtain ⟨member, hmember, hf⟩ := List.exists_of_findSome?_eq_some h
  have hbeneath : Beneath c member := Beneath.here.of_mem_namedChildren hmember
  split at hf
  case h_1 =>
    split at hf
    · exact Option.some.inj hf ▸ hbeneath
    · simp at hf
  case h_5 => simp at hf
  all_goals
    split at hf
    · rename_i value hvalue
      dsimp only at hf
      split at hf
      · exact Option.some.inj hf ▸ hbeneath.child? hvalue
      · simp at hf
    · simp at hf

theorem among_of_container? (h : Among units c) (hf : container? c = some f) :
    Among units f := by
  unfold container? at hf
  split at hf
  · simp at hf
  · rename_i parent hparent
    have hamong := h.of_mem_lineage (mem_lineage_of_parent? hparent)
    split at hf
    · exact hamong.child? hf
    · exact hamong.child? hf
    · split at hf
      · rename_i value hvalue
        split at hf
        · exact Option.some.inj hf ▸ hamong.child? hvalue
        · exact (hamong.child? hvalue).child? hf
        · simp at hf
      · simp at hf
    · simp at hf

theorem mem_units_of_imported? {target : SourceUnit} {name : Text}
    (h : imported? project c = some (target, name)) : target ∈ project.units := by
  unfold imported? at h
  split at h
  · obtain ⟨found, hfound, heq⟩ := Option.map_eq_some_iff.mp h
    simp only [Prod.mk.injEq] at heq
    exact heq.1 ▸ Project.mem_units_of_resolveModule? hfound
  · simp at h

theorem beneath_of_mem_declaredNames {name : Cursor} (h : name ∈ c.declaredNames) :
    Beneath c name := by
  unfold declaredNames at h
  split at h
  case h_4 | h_5 =>
    obtain ⟨declarator, hdeclarator, hname⟩ := List.mem_flatMap.mp h
    have hbeneath : Beneath c declarator :=
      Beneath.here.of_mem_namedChildren (List.mem_filter.mp hdeclarator).1
    split at hname
    · rename_i pattern hpattern
      exact (hbeneath.child? hpattern).trans (of_mem_patternBindings hname).1
    · simp at hname
  case h_6 => simp at h
  all_goals exact Beneath.here.child? (Option.mem_toList.mp h)

theorem beneath_of_mem_statementExports {entry : Text × Cursor} (h : entry ∈ c.statementExports) :
    Beneath c entry.2 := by
  unfold statementExports at h
  split at h
  · simp at h
  · split at h
    · -- the default export
      split at h
      · rename_i target htarget
        rw [List.mem_singleton.mp h]
        rcases Option.or_eq_some_iff.mp htarget with htarget | ⟨_, htarget⟩
        · exact Beneath.here.child? htarget
        · exact Beneath.here.child? htarget
      · simp at h
    · split at h
      · -- an exported declaration
        rename_i declaration hdeclaration
        obtain ⟨name, hname, rfl⟩ := List.mem_map.mp h
        exact (Beneath.here.child? hdeclaration).trans (beneath_of_mem_declaredNames hname)
      · -- a list of exported names
        obtain ⟨clause, hclause, h⟩ := List.mem_flatMap.mp h
        obtain ⟨specifier, hspecifier, h⟩ := List.mem_filterMap.mp h
        have hbeneath : Beneath c specifier :=
          (Beneath.here.of_mem_namedChildren (List.mem_filter.mp hclause).1).of_mem_namedChildren
            (List.mem_filter.mp hspecifier).1
        unfold specifierExport? at h
        dsimp only at h
        split at h
        · rename_i provider exported hprovider _
          rw [← Option.some.inj h]
          exact hbeneath.child? hprovider
        · simp at h

/-- What a file exports is a node of the file. -/
theorem in_of_exports {unit : SourceUnit} {entry : Text × Cursor} (h : entry ∈ unit.exports) :
    In unit entry.2 := by
  have hentry := (Assoc.mem_of_mem_foldl_insertNew h).resolve_right List.not_mem_nil
  obtain ⟨statement, hstatement, hentry⟩ := List.mem_flatMap.mp hentry
  have hin : In unit statement := In.top.of_mem_namedChildren (List.mem_filter.mp hstatement).1
  exact hin.beneath (beneath_of_mem_statementExports hentry)

theorem among_of_exported? (hproject : project.Coherent) {target : SourceUnit} {name : Text}
    (htarget : target ∈ units) (h : exported? project target name = some f) :
    Among units f := by
  unfold exported? at h
  split at h
  · simp at h
  · rename_i provider hprovider
    have hin : In target provider := in_of_exports (Assoc.mem_of_get? hprovider)
    have hamong : Among units provider := .of_in htarget hin
    split at h
    · exact Option.some.inj h ▸ hamong
    · split at h
      · split at h
        · rename_i declaration hdeclaration
          rw [← hin.unit_eq] at hdeclaration
          have hdeclared := hamong.declarationOf? hproject hdeclaration
          split at h
          · rename_i g hg
            exact Option.some.inj h ▸ among_of_bound hdeclared hg
          · simp at h
        · simp at h
      · simp at h

theorem among_of_named? (hproject : project.Coherent) (hunits : project.units ⊆ units)
    (hc : Among units c) (h : named? project c = some f) : Among units f := by
  unfold named? at h
  split at h
  · simp at h
  · rename_i binding hbinding
    have hamong := hc.declarationOf? hproject hbinding
    split at h
    · rename_i g hg
      exact Option.some.inj h ▸ among_of_bound hamong hg
    · simp at h
    · split at h
      · rename_i target exportedName himported
        exact among_of_exported? hproject (hunits (mem_units_of_imported? himported)) h
      · simp at h

theorem among_of_member? (hproject : project.Coherent) (hunits : project.units ⊆ units)
    (hc : Among units c) (h : member? project c = some f) : Among units f := by
  unfold member? at h
  split at h
  · rename_i receiver name hreceiver _
    have hamong := hc.child? hreceiver
    split at h
    · -- a member of the class around `this`
      split at h
      · rename_i body hbody
        have hbodyAmong := hc.of_mem_lineage (mem_lineage_of_ancestor? hbody)
        exact hbodyAmong.beneath (beneath_of_memberFunction? h)
      · simp at h
    · split at h
      · split at h
        · simp at h
        · rename_i declaration hdeclaration
          have hdeclared := hamong.declarationOf? hproject hdeclaration
          split at h
          · rename_i container hcontainer
            exact (among_of_container? hdeclared hcontainer).beneath
              (beneath_of_memberFunction? h)
          · -- a name of a whole imported file
            split at h
            · rename_i target importedName himported
              split at h
              · exact among_of_exported? hproject (hunits (mem_units_of_imported? himported)) h
              · simp at h
            · simp at h
      · simp at h
  · simp at h

end Callee

/-- A call invokes a function of its own file or of the project, if any is known. -/
theorem Project.among_of_callee? {project : Project} {units : List SourceUnit}
    (hproject : project.Coherent) (hunits : project.units ⊆ units) {call f : Cursor}
    (hcall : Among units call) (h : project.callee? call = some f) : Among units f := by
  unfold callee? at h
  split at h
  · simp at h
  · rename_i callee hcallee
    split at h
    · exact Callee.among_of_named? hproject hunits (hcall.child? hcallee) h
    · split at h
      · exact Callee.among_of_member? hproject hunits (hcall.child? hcallee) h
      · simp at h

/-! ## The use of a reference -/

namespace ReferenceUse

variable {n call : Cursor}

theorem of_argumentOf? {index : Nat} (h : argumentOf? n = some (call, index)) :
    call ∈ n.lineage ∧ call.kind = .callExpression := by
  unfold argumentOf? at h
  split at h
  · rename_i list hlist
    split at h
    · split at h
      · rename_i outer houter
        split at h
        · rename_i hkind
          obtain ⟨position, _, heq⟩ := Option.map_eq_some_iff.mp h
          obtain ⟨rfl, rfl⟩ := Prod.mk.inj heq
          exact ⟨mem_lineage_trans (mem_lineage_of_parent? houter) (mem_lineage_of_parent? hlist),
            hkind⟩
        · simp at h
      · simp at h
    · simp at h
  · simp at h

theorem of_carriedBy {name : Text} (h : (carriedBy n name).call? = some call) :
    call ∈ n.lineage ∧ call.kind = .callExpression := by
  unfold carriedBy at h
  split at h
  · rename_i outer index hargument
    obtain rfl := Option.some.inj h
    exact of_argumentOf? hargument
  · simp [call?] at h

/-- A reference is used by a call around it. -/
theorem of_classify (h : (classify n).call? = some call) :
    call ∈ n.lineage ∧ call.kind = .callExpression := by
  unfold classify at h
  split at h
  · simp [call?] at h
  · rename_i parent hparent
    have hmem := mem_lineage_of_parent? hparent
    split at h
    case h_1 hkind =>
      split at h
      · obtain rfl := Option.some.inj h
        exact ⟨hmem, hkind⟩
      · simp [call?] at h
    case h_2 =>
      -- a method of the translator: the call is around the member access
      split at h
      · split at h
        · rename_i outer houter
          split at h
          · rename_i hcall
            obtain rfl := Option.some.inj h
            simp only [Bool.and_eq_true, decide_eq_true_eq] at hcall
            exact ⟨mem_lineage_trans (mem_lineage_of_parent? houter) hmem, hcall.1⟩
          · simp [call?] at h
        · simp [call?] at h
      · simp [call?] at h
    case h_3 =>
      split at h
      · rename_i outer index hargument
        obtain rfl := Option.some.inj h
        exact of_argumentOf? hargument
      · simp [call?] at h
    case h_4 =>
      -- a property by its own name, in a literal that is an argument
      split at h
      · obtain ⟨hcall, hkind⟩ := of_carriedBy h
        exact ⟨mem_lineage_trans hcall hmem, hkind⟩
      · simp [call?] at h
    case h_5 =>
      -- a property under a name: the literal is one level further up
      split at h
      · split at h
        · rename_i name literal _ hliteral
          split at h
          · obtain ⟨hcall, hkind⟩ := of_carriedBy h
            have hliteralMem := mem_lineage_trans (mem_lineage_of_parent? hliteral) hmem
            exact ⟨mem_lineage_trans hcall hliteralMem, hkind⟩
          · simp [call?] at h
        · simp [call?] at h
      · simp [call?] at h
    case h_6 => simp [call?] at h

/-- What is called is the node itself or a method of it. -/
theorem of_classify_direct (h : classify n = .direct call) :
    (n.parent? = some call ∧ call.hasChild .function n = true) ∨
      ∃ access, n.parent? = some access ∧ access.kind = .memberExpression ∧
        access.hasChild .object n = true ∧ access.parent? = some call ∧
        call.hasChild .function access = true := by
  have hcarried : ∀ literal name, carriedBy literal name ≠ .direct call := by
    intro literal name
    unfold carriedBy
    split <;> simp
  unfold classify at h
  split at h
  · simp at h
  · rename_i parent hparent
    split at h
    case h_1 =>
      split at h
      · rename_i hfunction
        obtain rfl := ReferenceUse.direct.inj h
        exact Or.inl ⟨hparent, hfunction⟩
      · simp at h
    case h_2 hkind =>
      split at h
      · rename_i hobject
        split at h
        · rename_i outer houter
          split at h
          · rename_i hcall
            obtain rfl := ReferenceUse.direct.inj h
            simp only [Bool.and_eq_true] at hcall
            exact Or.inr ⟨parent, hparent, hkind, hobject, houter, hcall.2⟩
          · simp at h
        · simp at h
      · simp at h
    case h_3 => split at h <;> simp at h
    case h_4 =>
      split at h
      · exact absurd h (hcarried _ _)
      · simp at h
    case h_5 =>
      split at h
      · split at h
        · split at h
          · exact absurd h (hcarried _ _)
          · simp at h
        · simp at h
      · simp at h
    case h_6 => simp at h

theorem mem_lineage_of_classify_direct (h : classify n = .direct call) : call ∈ n.lineage := by
  have hcall : (classify n).call? = some call := by
    rw [h]
    rfl
  exact (of_classify hcall).1

end ReferenceUse

/-! ## The parameters that receive a translator -/

theorem Syntax.Cursor.beneath_of_mem_destructured {pattern element : Cursor} {property : Text}
    (h : element ∈ pattern.destructured property) : Beneath pattern element := by
  obtain ⟨part, hpart, h⟩ := List.mem_filterMap.mp h
  have hbeneath : Beneath pattern part := Beneath.here.of_mem_namedChildren hpart
  split at h
  · split at h
    · exact Option.some.inj h ▸ hbeneath
    · simp at h
  · split at h
    · rename_i left hleft
      split at h
      · exact Option.some.inj h ▸ hbeneath.child? hleft
      · simp at h
    · simp at h
  · split at h
    · split at h
      · rename_i value hvalue
        have hvalueBeneath := hbeneath.child? hvalue
        dsimp only at h
        have htarget := Option.eq_some_of_filter_eq_some h
        split at htarget
        · exact hvalueBeneath.child? htarget
        · exact Option.some.inj htarget ▸ hvalueBeneath
      · simp at h
    · simp at h
  · simp at h

/-- The references of a binding depend on its identity only. -/
theorem Syntax.ScopeIndex.references_congr (index : ScopeIndex) {b c : Cursor}
    (hunit : b.unit = c.unit) (hkey : b.key = c.key) : index.references b = index.references c := by
  unfold references owner? refersTo
  rw [hkey, text_eq_of_key_eq hunit hkey]

namespace Resolver

variable {r : Resolver} {units : List SourceUnit} {space : Option Text} {t : Translator}

/-- A translator that is handed to a call lands in a parameter of the called function, with the
namespace it has. -/
theorem of_mem_forward (hproject : r.project.Coherent) (hunits : r.project.units ⊆ units)
    {use : ReferenceUse} {call : Cursor} (huse : use.call? = some call) (hcall : Among units call)
    (h : t ∈ r.forward space use) : Among units t.site ∧ t.space = space := by
  -- both kinds of hand-over end at the pattern of one parameter
  have hpattern : ∀ (index : Nat) (pattern : Cursor),
      ((r.project.callee? call).bind fun function =>
        function.functionParameters[index]?.bind parameterPattern?) = some pattern →
      Among units pattern := by
    intro index pattern hpattern
    obtain ⟨function, hfunction, hpattern⟩ := Option.bind_eq_some_iff.mp hpattern
    obtain ⟨parameter, hparameter, hpattern⟩ := Option.bind_eq_some_iff.mp hpattern
    have hamong := r.project.among_of_callee? hproject hunits hcall hfunction
    have hbeneath := beneath_of_mem_functionParameters (List.mem_of_getElem? hparameter)
    exact (hamong.beneath hbeneath).beneath (of_parameterPattern? hpattern).1
  cases use with
  | direct _ => simp [forward] at h
  | ignored => simp [forward] at h
  | positional outer index =>
      obtain rfl : outer = call := Option.some.inj huse
      simp only [forward] at h
      split at h
      · rename_i pattern hfound
        split at h
        · rw [List.mem_singleton.mp h]
          exact ⟨hpattern index pattern hfound, rfl⟩
        · simp at h
      · simp at h
  | property outer index name =>
      obtain rfl : outer = call := Option.some.inj huse
      simp only [forward] at h
      split at h
      · rename_i pattern hfound
        split at h
        · obtain ⟨element, helement, rfl⟩ := List.mem_map.mp h
          exact ⟨(hpattern index pattern hfound).beneath (beneath_of_mem_destructured helement),
            rfl⟩
        · simp at h
      · simp at h

theorem forward_eq_nil {use : ReferenceUse} (h : use.call? = none) : r.forward space use = [] := by
  cases use with
  | ignored => rfl
  | direct call => simp [ReferenceUse.call?] at h
  | positional call index => simp [ReferenceUse.call?] at h
  | property call index name => simp [ReferenceUse.call?] at h

/-- What a node hands on lands in its own file or in the project. -/
theorem of_mem_forward_classify (hproject : r.project.Coherent) (hunits : r.project.units ⊆ units)
    {n : Cursor} (hn : Among units n) (h : t ∈ r.forward space (ReferenceUse.classify n)) :
    Among units t.site ∧ t.space = space := by
  cases hcall : (ReferenceUse.classify n).call? with
  | none =>
      rw [forward_eq_nil hcall] at h
      simp at h
  | some call =>
      have hamong := hn.of_mem_lineage (ReferenceUse.of_classify hcall).1
      exact of_mem_forward hproject hunits hcall hamong h

/-- The references to a translator are nodes of its file. -/
theorem among_of_mem_references (hproject : r.project.Coherent) {c n : Cursor}
    (hc : c.unit ∈ units) (h : n ∈ (r.project.index c.unit).references c) : Among units n := by
  rw [hproject.index_eq] at h
  exact .of_in hc (.of_mem_cursors (ScopeIndex.of_mem_references h).1)

/-- Translators of one identity are used in one way. -/
theorem uses_congr (hproject : r.project.Coherent) {s t : Translator}
    (hs : s.site.unit ∈ r.project.units) (ht : t.site.unit ∈ r.project.units)
    (hkey : s.key = t.key) : r.uses s = r.uses t := by
  have hsite : s.site.key = t.site.key := congrArg Prod.fst hkey
  have hunit := hproject.unit_eq hs ht (congrArg NodeKey.path hsite)
  unfold uses
  rw [hunit, ScopeIndex.references_congr _ hunit hsite]

/-- An expansion can reach every node of the file that it starts in and of the project, in the
namespace that it starts with. -/
theorem key_mem_sites_of_among {s : Translator}
    (hs : Among (t.site.unit :: r.project.units) s.site) (hspace : s.space = t.space) :
    s.key ∈ r.sites t := by
  have hkey : s.key = (s.site.key, t.space) := by
    rw [← hspace]
    rfl
  rw [hkey, sites]
  refine List.mem_cons_of_mem _ (List.mem_map_of_mem (f := fun key => (key, t.space)) ?_)
  exact hs.key_mem_nodeKeys

theorem key_mem_sites {s : Translator} (hs : r.project.Holds s.site) (hspace : s.space = t.space) :
    s.key ∈ r.sites t :=
  key_mem_sites_of_among (Among.mono hs (List.subset_cons_self _ _)) hspace

end Resolver

end MessageKeys
