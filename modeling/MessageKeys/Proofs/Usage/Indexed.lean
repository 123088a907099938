import MessageKeys.Proofs.Syntax.Visibility
import MessageKeys.Proofs.Usage.Callees
import MessageKeys.Proofs.Usage.Positions
import MessageKeys.Proofs.Usage.Termination

/-!
# Translators sit at declared names

References to a translator are looked for in the scope that the index remembers for its node, so a
translator at a node that the index does not know would be lost without a word.  This does not
happen: what a hook call declares and what a parameter selects are names that the index has, each
with the scope that declared it.

* A translator that is handed on is selected by the pattern of one parameter, in one of five forms
  (`Cursor.Selects`, `Resolver.mem_forward_iff`).  Each of them is among the names that the pattern
  binds (`Selects.mem_patternBindings`), so the called function declares it.
* A name that a hook call is declared with belongs to the scope of its declarator, which exists
  because the file as a whole is a scope (`exists_declaratorScope?`).
* Nothing else comes onto the stack of an expansion (`Resolver.Turns.forall_stack`).
-/

namespace MessageKeys

open Syntax Cursor

/-! ## The forms of a parameter -/

namespace Syntax.Cursor

/-- The name that the pattern of a parameter gives to what is handed to it: to the argument itself,
or to a property of it. -/
inductive Selects (pattern : Cursor) : Option Text → Cursor → Prop
  | positional (hkind : pattern.kind = .identifier) : Selects pattern none pattern
  | shorthand {name : Cursor} (hobject : pattern.kind = .objectPattern)
      (hpart : name ∈ pattern.namedChildren)
      (hkind : name.kind = .shorthandPropertyIdentifierPattern) :
      Selects pattern (some name.text) name
  | defaulted {part name : Cursor} (hobject : pattern.kind = .objectPattern)
      (hpart : part ∈ pattern.namedChildren) (hkind : part.kind = .objectAssignmentPattern)
      (hleft : part.child? .left = some name) : Selects pattern (some name.text) name
  | renamed {part name : Cursor} {property : Text} (hobject : pattern.kind = .objectPattern)
      (hpart : part ∈ pattern.namedChildren) (hkind : part.kind = .pairPattern)
      (hkey : (part.child? .key).bind propertyName? = some property)
      (hvalue : part.child? .value = some name) (hname : name.kind = .identifier) :
      Selects pattern (some property) name
  | renamedDefaulted {part value name : Cursor} {property : Text}
      (hobject : pattern.kind = .objectPattern) (hpart : part ∈ pattern.namedChildren)
      (hkind : part.kind = .pairPattern)
      (hkey : (part.child? .key).bind propertyName? = some property)
      (hvalue : part.child? .value = some value) (hassignment : value.kind = .assignmentPattern)
      (hleft : value.child? .left = some name) (hname : name.kind = .identifier) :
      Selects pattern (some property) name

variable {pattern part name : Cursor} {property : Text}

theorem selects_of_mem_destructured (hobject : pattern.kind = .objectPattern)
    (h : name ∈ pattern.destructured property) : pattern.Selects (some property) name := by
  obtain ⟨part, hpart, h⟩ := List.mem_filterMap.mp h
  split at h
  · rename_i hkind
    split at h
    · rename_i htext
      obtain rfl := Option.some.inj h
      exact htext ▸ .shorthand hobject hpart hkind
    · simp at h
  · rename_i hkind
    split at h
    · rename_i left hleft
      split at h
      · rename_i htext
        obtain rfl := Option.some.inj h
        exact htext ▸ .defaulted hobject hpart hkind hleft
      · simp at h
    · simp at h
  · rename_i hkind
    split at h
    · rename_i hkey
      split at h
      · rename_i value hvalue
        obtain ⟨htarget, hname⟩ := Option.filter_eq_some_iff.mp h
        split at htarget
        · rename_i hassignment
          exact .renamedDefaulted hobject hpart hkind hkey hvalue hassignment htarget
            (of_decide_eq_true hname)
        · obtain rfl := Option.some.inj htarget
          exact .renamed hobject hpart hkind hkey hvalue (of_decide_eq_true hname)
      · simp at h
    · simp at h
  · simp at h

theorem mem_destructured_of_selects (h : pattern.Selects (some property) name) :
    pattern.kind = .objectPattern ∧ name ∈ pattern.destructured property := by
  unfold destructured
  cases h with
  | shorthand hobject hpart hkind =>
      exact ⟨hobject, List.mem_filterMap.mpr ⟨name, hpart, by simp [hkind]⟩⟩
  | @defaulted part _ hobject hpart hkind hleft =>
      exact ⟨hobject, List.mem_filterMap.mpr ⟨part, hpart, by simp [hkind, hleft]⟩⟩
  | @renamed part _ _ hobject hpart hkind hkey hvalue hname =>
      exact ⟨hobject, List.mem_filterMap.mpr ⟨part, hpart, by simp [hkind, hkey, hvalue, hname]⟩⟩
  | @renamedDefaulted part _ _ _ hobject hpart hkind hkey hvalue hassignment hleft hname =>
      exact ⟨hobject, List.mem_filterMap.mpr
        ⟨part, hpart, by simp [hkind, hkey, hvalue, hassignment, hleft, hname]⟩⟩

/-! ## What a pattern selects, it binds -/

theorem mem_patternBindings_self
    (h : name.kind = .identifier ∨ name.kind = .shorthandPropertyIdentifierPattern) :
    name ∈ name.patternBindings := by
  rw [patternBindings_eq, if_pos h]
  exact List.mem_singleton_self name

theorem mem_patternBindings_of_part (part : Cursor) (hpart : part ∈ pattern.patternParts)
    (h : name ∈ part.patternBindings) : name ∈ pattern.patternBindings := by
  have hplain : ¬(pattern.kind = .identifier ∨
      pattern.kind = .shorthandPropertyIdentifierPattern) := by
    have hpattern := isPattern_of_mem_patternParts hpart
    rintro (hkind | hkind) <;> simp [hkind, Kind.isPattern] at hpattern
  rw [patternBindings_eq, if_neg hplain]
  exact List.mem_flatMap.mpr ⟨part, hpart, h⟩

/-- A name that a pattern selects is one that it binds, if only shorthand names have default
values in object patterns. -/
theorem Selects.mem_patternBindings {property : Option Text} (h : pattern.Selects property name)
    (hshorthand : ∀ part ∈ pattern.namedChildren, part.kind = .objectAssignmentPattern →
      ∀ left, part.child? .left = some left → left.kind = .shorthandPropertyIdentifierPattern) :
    name ∈ pattern.patternBindings := by
  have hparts (hobject : pattern.kind = .objectPattern) :
      pattern.patternParts = pattern.namedChildren := by
    simp [patternParts, hobject]
  cases h with
  | positional hkind => exact mem_patternBindings_self (.inl hkind)
  | shorthand hobject hpart hkind =>
      refine mem_patternBindings_of_part _ (hparts hobject ▸ hpart) ?_
      exact mem_patternBindings_self (.inr hkind)
  | defaulted hobject hpart hkind hleft =>
      refine mem_patternBindings_of_part _ (hparts hobject ▸ hpart) ?_
      refine mem_patternBindings_of_part name (by simp [patternParts, hkind, hleft]) ?_
      exact mem_patternBindings_self (.inr (hshorthand _ hpart hkind name hleft))
  | renamed hobject hpart hkind _ hvalue hname =>
      refine mem_patternBindings_of_part _ (hparts hobject ▸ hpart) ?_
      refine mem_patternBindings_of_part name (by simp [patternParts, hkind, hvalue]) ?_
      exact mem_patternBindings_self (.inl hname)
  | @renamedDefaulted _ value _ _ hobject hpart hkind _ hvalue hassignment hleft hname =>
      refine mem_patternBindings_of_part _ (hparts hobject ▸ hpart) ?_
      refine mem_patternBindings_of_part value (by simp [patternParts, hkind, hvalue]) ?_
      refine mem_patternBindings_of_part name
        (by simp [patternParts, hassignment, hleft]) ?_
      exact mem_patternBindings_self (.inl hname)

theorem mem_lineage_of_mem_functionParameters {function parameter : Cursor}
    (h : parameter ∈ function.functionParameters) : function ∈ parameter.lineage := by
  rcases of_mem_functionParameters h with hsingle | ⟨list, hlist, hparameter⟩
  · exact mem_lineage_of_parent? (parent?_of_child? hsingle)
  · have hinner := parent?_of_mem_children (mem_namedChildren.mp hparameter).1
    exact mem_lineage_trans (mem_lineage_of_parent? (parent?_of_child? hlist))
      (mem_lineage_of_parent? hinner)

theorem mem_lineage_of_mem_parameterBindings {function : Cursor}
    (h : name ∈ function.parameterBindings) : function ∈ name.lineage := by
  obtain ⟨parameter, hparameter, hbelow, -⟩ := of_mem_parameterBindings h
  have habove := mem_lineage_of_mem_functionParameters hparameter
  rcases hbelow.eq_or_mem_lineage with rfl | hinner
  · exact habove
  · exact mem_lineage_trans habove hinner

end Syntax.Cursor

/-! ## Handing a translator on -/

/-- The property under which a use carries the reference. -/
def ReferenceUse.carried? : ReferenceUse → Option Text
  | property _ _ name => some name
  | _ => none

/-- A translator is handed on to exactly what the pattern of the parameter selects. -/
theorem Resolver.mem_forward_iff {r : Resolver} {space : Option Text} {use : ReferenceUse}
    {t : Translator} :
    t ∈ r.forward space use ↔
      t.space = space ∧ ∃ call index function parameter pattern,
        use.handed? = some (call, index) ∧ r.project.callee? call = some function ∧
        function.functionParameters[index]? = some parameter ∧
        parameter.parameterPattern? = some pattern ∧ pattern.Selects use.carried? t.site := by
  obtain ⟨site, given⟩ := t
  have hpattern (call : Cursor) (index : Nat) (pattern : Cursor) :
      ((r.project.callee? call).bind fun function =>
        function.functionParameters[index]?.bind parameterPattern?) = some pattern ↔
      ∃ function parameter, r.project.callee? call = some function ∧
        function.functionParameters[index]? = some parameter ∧
        parameter.parameterPattern? = some pattern := by
    simp only [Option.bind_eq_some_iff, exists_and_left]
  constructor
  · intro h
    cases use with
    | direct _ => simp [forward] at h
    | ignored => simp [forward] at h
    | positional call index =>
        simp only [forward] at h
        split at h
        · rename_i pattern hfound
          split at h
          · rename_i hkind
            obtain ⟨rfl, rfl⟩ := Translator.mk.inj (List.mem_singleton.mp h)
            obtain ⟨function, parameter, hcallee, hparameter, hfound⟩ := (hpattern _ _ _).mp hfound
            exact ⟨rfl, call, index, function, parameter, site, rfl, hcallee, hparameter, hfound,
              .positional hkind⟩
          · simp at h
        · simp at h
    | property call index name =>
        simp only [forward] at h
        split at h
        · rename_i pattern hfound
          split at h
          · rename_i hkind
            obtain ⟨element, helement, heq⟩ := List.mem_map.mp h
            obtain ⟨rfl, rfl⟩ := Translator.mk.inj heq
            obtain ⟨function, parameter, hcallee, hparameter, hfound⟩ := (hpattern _ _ _).mp hfound
            exact ⟨rfl, call, index, function, parameter, pattern, rfl, hcallee, hparameter, hfound,
              selects_of_mem_destructured hkind helement⟩
          · simp at h
        · simp at h
  · rintro ⟨rfl, call, index, function, parameter, pattern, hhanded, hcallee, hparameter, hfound,
      hselects⟩
    have hfound := (hpattern call index pattern).mpr
      ⟨function, parameter, hcallee, hparameter, hfound⟩
    cases use with
    | direct _ => simp [ReferenceUse.handed?] at hhanded
    | ignored => simp [ReferenceUse.handed?] at hhanded
    | positional outer position =>
        obtain ⟨rfl, rfl⟩ := Prod.mk.inj (Option.some.inj hhanded)
        cases hselects with
        | positional hkind => simp [forward, hfound, hkind]
    | property outer position name =>
        obtain ⟨rfl, rfl⟩ := Prod.mk.inj (Option.some.inj hhanded)
        obtain ⟨hkind, hmem⟩ := mem_destructured_of_selects hselects
        simp [forward, hfound, hkind, hmem]

theorem Project.isFunction_of_callee? {project : Project} {call f : Cursor}
    (hproject : project.Coherent) (h : project.callee? call = some f) :
    f.kind.isFunction = true := by
  rcases of_callee? hproject h with ⟨-, hkind⟩ | ⟨_, _, _, -, _, _, -, -, hexported⟩
  · exact hkind
  · exact (Callee.ownFunction_of_exported? hproject hexported).2

/-! ## Names with their scopes -/

/-- A file that the parser could make a program of, and in which a property with a default value is
a shorthand name.  As in any syntax tree of the language, nothing is below a token, a list of
parameters is no scope, and no two declared names have the same identity. -/
structure Syntax.SourceUnit.FollowsGrammar (unit : SourceUnit) : Prop where
  program : unit.top.kind = .program
  shorthand : ∀ c ∈ unit.places, c.kind = .objectAssignmentPattern →
    ∀ left, c.child? .left = some left → left.kind = .shorthandPropertyIdentifierPattern
  token_leaf : ∀ c ∈ unit.places, c.label.named = false → c.node.children = []
  parameters_not_scope : ∀ c ∈ unit.places, c.label.field = some .parameters →
    c.kind.isScope = false
  names_apart : ∀ d ∈ (ScopeIndex.ofUnit unit).declarations,
    ∀ e ∈ (ScopeIndex.ofUnit unit).declarations, d.binding.key = e.binding.key →
      d.binding = e.binding

/-- The index of the node's file has the node as a declared name, and remembers a scope around it
for the name. -/
structure Project.Indexes (project : Project) (name owner : Cursor) : Prop where
  isBinding : (project.index name.unit).isBinding name = true
  owner?_eq : (project.index name.unit).owner? name = some owner
  encloses : owner ∈ name.lineage
  isScope : owner.kind.isScope = true

namespace Syntax.SourceUnit.FollowsGrammar

variable {unit : SourceUnit} {project : Project} {c scope name : Cursor}

theorem indexes (h : unit.FollowsGrammar) (hproject : project.Coherent) (hc : c ∈ unit.cursors)
    (hdeclares : c.Declares scope name) (hencloses : scope ∈ name.lineage)
    (hscope : scope.kind.isScope = true) : project.Indexes name scope := by
  have hd := ScopeIndex.mem_declarations_ofUnit.mpr ⟨c, hc, hdeclares.mem_declarations⟩
  have hunit : name.unit = unit := (ScopeIndex.binding_in hd).unit_eq
  have hindex : project.index name.unit = ScopeIndex.ofUnit unit := by
    rw [hproject.index_eq, hunit]
  refine ⟨?_, ?_, hencloses, hscope⟩
  · rw [hindex]
    exact ScopeIndex.isBinding_iff.mpr ⟨_, hd, rfl⟩
  · rw [hindex]
    exact ScopeIndex.owner?_eq_scope h.parameters_not_scope hd fun e he hkey =>
      h.names_apart e he _ hd hkey

/-- Around every node but the top there is a node of any kind that the top has. -/
theorem exists_ancestor? (h : unit.FollowsGrammar) (hc : In unit c) (hkind : c.kind ≠ .program)
    {p : Kind → Bool} (hp : p .program = true) : ∃ a, c.ancestor? p = some a := by
  have htop : unit.top ∈ c.lineage := by
    rcases Beneath.eq_or_mem_lineage hc with rfl | habove
    · exact absurd h.program hkind
    · exact habove
  rw [ancestor?_eq_find?]
  refine Option.isSome_iff_exists.mp (List.find?_isSome.mpr ⟨unit.top, htop, ?_⟩)
  rw [h.program]
  exact hp

theorem exists_declaratorScope? (h : unit.FollowsGrammar) (hc : In unit c)
    (hkind : c.kind = .variableDeclarator) :
    ∃ scope, c.declaratorScope? = some scope ∧ scope.kind.isScope = true := by
  have hprogram : c.kind ≠ .program := by simp [hkind]
  unfold declaratorScope?
  split
  · obtain ⟨scope, hscope⟩ := h.exists_ancestor? (p := Kind.isHoistTarget) hc hprogram rfl
    exact ⟨scope, hscope, isScope_of_isHoistTarget (kind_of_ancestor? hscope)⟩
  · obtain ⟨scope, hscope⟩ := h.exists_ancestor? (p := Kind.isScope) hc hprogram rfl
    exact ⟨scope, hscope, kind_of_ancestor? hscope⟩

/-- A plain name is declared in the scope of its declarator. -/
theorem exists_indexes_declarator (h : unit.FollowsGrammar) (hproject : project.Coherent)
    (hc : c ∈ unit.cursors) (hkind : c.kind = .variableDeclarator)
    (hname : c.child? .name = some name) (hplain : name.kind = .identifier) :
    ∃ owner, project.Indexes name owner := by
  obtain ⟨scope, hscope, hscopeKind⟩ := h.exists_declaratorScope? (In.of_mem_cursors hc) hkind
  have hbinding : name ∈ c.bindingsOf .name :=
    mem_bindingsOf.mpr ⟨name, hname, mem_patternBindings_self (.inl hplain)⟩
  have hencloses : scope ∈ name.lineage :=
    mem_lineage_trans (mem_lineage_of_declaratorScope? hscope)
      (mem_lineage_of_parent? (parent?_of_child? hname))
  exact ⟨scope, h.indexes hproject hc (.declarator hkind hscope hbinding) hencloses hscopeKind⟩

/-- What the pattern of a parameter selects is declared in the function. -/
theorem indexes_selected (h : unit.FollowsGrammar) (hproject : project.Coherent)
    {function parameter pattern : Cursor} (hfunction : In unit function)
    (hkind : function.kind.isFunction = true)
    (hparameter : parameter ∈ function.functionParameters)
    (hpattern : parameter.parameterPattern? = some pattern) {property : Option Text}
    (hselects : pattern.Selects property name) : project.Indexes name function := by
  have hchildren : function.node.children ≠ [] := by
    intro hnone
    have heq := Beneath.eq_of_leaf (beneath_of_mem_functionParameters hparameter) hnone
    have hdepth := depth_lt_of_mem_lineage (mem_lineage_of_mem_functionParameters hparameter)
    rw [heq] at hdepth
    exact Nat.lt_irrefl _ hdepth
  have hnamed : function.label.named = true := by
    by_contra hflag
    exact hchildren (h.token_leaf function (mem_unit_places.mpr hfunction) (by simpa using hflag))
  have hmem := ScopeIndex.mem_cursors_of_token_leaf h.token_leaf hfunction hnamed
  have hin : In unit pattern := (hfunction.beneath
    (beneath_of_mem_functionParameters hparameter)).beneath (of_parameterPattern? hpattern).1
  have hbound : name ∈ pattern.patternBindings := by
    refine hselects.mem_patternBindings fun part hpart hpartKind left hleft => ?_
    exact h.shorthand part (mem_unit_places.mpr (hin.of_mem_namedChildren hpart)) hpartKind left
      hleft
  have hbinding : name ∈ function.parameterBindings :=
    mem_parameterBindings.mpr ⟨parameter, hparameter, pattern, hpattern, hbound⟩
  exact h.indexes hproject hmem (.parameter hkind hbinding)
    (mem_lineage_of_mem_parameterBindings hbinding) (isScope_of_isFunction hkind)

end Syntax.SourceUnit.FollowsGrammar

namespace Resolver

variable {r : Resolver} {space : Option Text} {t : Translator} {n : Cursor}
  {before after : Expansion}

/-! ## Translators on the stack -/

theorem call?_of_handed? {use : ReferenceUse} {call : Cursor} {index : Nat}
    (h : use.handed? = some (call, index)) : use.call? = some call := by
  cases use with
  | positional outer position | property outer position _ =>
      exact congrArg some (Prod.mk.inj (Option.some.inj h)).1
  | direct _ | ignored => simp [ReferenceUse.handed?] at h

/-- What a node of the project is handed on to are the names that a parameter selects, and these
are declared in the called function. -/
theorem mem_forward_classify_iff (hproject : r.project.Coherent)
    (hgrammar : ∀ unit ∈ r.project.units, unit.FollowsGrammar) (hn : r.project.Holds n) :
    t ∈ r.forward space (ReferenceUse.classify n) ↔
      t.space = space ∧ ∃ call index function parameter pattern,
        (ReferenceUse.classify n).handed? = some (call, index) ∧
        r.project.callee? call = some function ∧
        function.functionParameters[index]? = some parameter ∧
        parameter.parameterPattern? = some pattern ∧
        pattern.Selects (ReferenceUse.classify n).carried? t.site ∧
        r.project.Indexes t.site function := by
  rw [mem_forward_iff]
  constructor
  · rintro ⟨hspace, call, index, function, parameter, pattern, hhanded, hcallee, hparameter,
      hpattern, hselects⟩
    have hcall := hn.of_mem_lineage (ReferenceUse.of_classify (call?_of_handed? hhanded)).1
    obtain ⟨hunit, hfunction⟩ :=
      r.project.among_of_callee? hproject (List.Subset.refl _) hcall hcallee
    have hkind := Project.isFunction_of_callee? hproject hcallee
    have hindexes := (hgrammar function.unit hunit).indexes_selected hproject hfunction hkind
      (List.mem_of_getElem? hparameter) hpattern hselects
    exact ⟨hspace, call, index, function, parameter, pattern, hhanded, hcallee, hparameter,
      hpattern,
      hselects, hindexes⟩
  · rintro ⟨hspace, call, index, function, parameter, pattern, hhanded, hcallee, hparameter,
      hpattern, hselects, -⟩
    exact ⟨hspace, call, index, function, parameter, pattern, hhanded, hcallee, hparameter,
      hpattern,
      hselects⟩

theorem exists_indexes_of_mem_forward (hproject : r.project.Coherent)
    (hgrammar : ∀ unit ∈ r.project.units, unit.FollowsGrammar) (hn : r.project.Holds n)
    (h : t ∈ r.forward space (ReferenceUse.classify n)) :
    ∃ owner, r.project.Indexes t.site owner := by
  obtain ⟨-, _, _, function, _, _, -, -, -, -, -, hindexes⟩ :=
    (mem_forward_classify_iff hproject hgrammar hn).mp h
  exact ⟨function, hindexes⟩

theorem Reaches.exists_indexes (hproject : r.project.Coherent)
    (hgrammar : ∀ unit ∈ r.project.units, unit.FollowsGrammar) (h : r.Reaches t) :
    ∃ owner, r.project.Indexes t.site owner := by
  cases h with
  | start hcall _ hstarts =>
      cases hstarts with
      | declared hparent hkind _ hname hplain =>
          have hdeclarator :=
            mem_cursors_of_mem_lineage hcall.mem_cursors (mem_lineage_of_parent? hparent)
          exact (hgrammar _ hcall.unit_mem).exists_indexes_declarator hproject hdeclarator hkind
            hname hplain
      | handed h => exact exists_indexes_of_mem_forward hproject hgrammar hcall.holds h
  | forward hs hn h =>
      have hholds := among_of_mem_references hproject (hs.holds hproject).1 hn
      exact exists_indexes_of_mem_forward hproject hgrammar hholds h

/-- What goes on from a translator to those that it is handed on to holds of all that are ever on
the stack. -/
theorem Turns.forall_stack {P : Translator → Prop}
    (hforward : ∀ s, P s → ∀ t ∈ r.forwarded s, P t) (h : r.Turns before after)
    (hstack : ∀ s ∈ before.stack, P s) : ∀ s ∈ after.stack, P s := by
  induction h with
  | refl => exact hstack
  | tail _ hlast ih =>
      cases hlast with
      | skip => exact (List.forall_mem_cons.mp ih).2
      | expand => exact forall_mem_forwarded_append hforward ih

/-- Every translator that waits to be expanded sits at a name that the index of its file has, with a
scope around it.  This holds of what the hook calls of a file make, and of whatever is on the stack
after any number of turns from there.  A node of the project is handed on to exactly what the
parameter selects, in any of its forms, and the scope of that name is the called function. -/
theorem indexes_worklist (root : Option Text) (files : List SourceUnit) (config : HookConfig)
    (hgrammar : ∀ unit ∈ (Project.ofUnits root files).units, unit.FollowsGrammar) :
    let r : Resolver := ⟨Project.ofUnits root files, config⟩
    (∀ unit ∈ r.project.units, ∀ trace, ∀ t ∈ (r.hookTranslators unit trace).2,
      (∃ owner, r.project.Indexes t.site owner) ∧
      ∀ marks state, r.Turns ⟨[t], marks, []⟩ state →
        ∀ s ∈ state.stack, ∃ owner, r.project.Indexes s.site owner) ∧
    ∀ n, r.project.Holds n → ∀ space t,
      t ∈ r.forward space (ReferenceUse.classify n) ↔
        t.space = space ∧ ∃ call index function parameter pattern,
          (ReferenceUse.classify n).handed? = some (call, index) ∧
          r.project.callee? call = some function ∧
          function.functionParameters[index]? = some parameter ∧
          parameter.parameterPattern? = some pattern ∧
          pattern.Selects (ReferenceUse.classify n).carried? t.site ∧
          r.project.Indexes t.site function := by
  intro r
  have hproject : r.project.Coherent := Project.coherent_ofUnits root files
  refine ⟨fun unit hunit trace t ht => ?_, fun n hn space t => ?_⟩
  · have hreaches := (run_hookTranslators hunit trace).2 t ht
    refine ⟨hreaches.exists_indexes hproject hgrammar, fun marks state hturns s hs => ?_⟩
    have hall : ∀ s ∈ state.stack, r.Reaches s := by
      refine hturns.forall_stack ?_ (List.forall_mem_singleton.mpr hreaches)
      intro u hu v hv
      obtain ⟨n, hn, hforward⟩ := mem_forwarded.mp hv
      exact .forward hu hn hforward
    exact (hall s hs).exists_indexes hproject hgrammar
  · exact mem_forward_classify_iff hproject hgrammar hn

/-- The file `const t = useTranslations("home"); function show(a, { t }, { t: b }, { t = 1 },
{ t: c = 1 }) {} show(t, { t }, { t }, { t }, { t });`. -/
def manyForms : SourceUnit :=
  let node (kind : Kind) (start stop : Nat) (field : Option Field) (children : List Node) : Node :=
    .mk ⟨kind, true, false, start, stop, ⟨0, start⟩, field⟩ children
  let name (start stop : Nat) (field : Option Field) := node .identifier start stop field []
  let parameter (start stop : Nat) (pattern : Node) :=
    node .requiredParameter start stop none [pattern]
  let properties (start stop : Nat) (part : Node) :=
    parameter start stop (node .objectPattern start stop (some .pattern) [part])
  let carried (start : Nat) :=
    node .object start (start + 5) none
      [node .shorthandPropertyIdentifier (start + 2) (start + 3) none []]
  { path := "forms.ts"
    source :=
      ("const t = useTranslations(\"home\"); function show(a, \x7b t \x7d, \x7b t: b \x7d, " ++
        "\x7b t = 1 \x7d, \x7b t: c = 1 \x7d) \x7b\x7d show(t, \x7b t \x7d, \x7b t \x7d, " ++
        "\x7b t \x7d, \x7b t \x7d);").toUTF8.data
    root := node .program 0 133 none
      [node .lexicalDeclaration 0 34 none
        [node .variableDeclarator 6 33 none
          [name 6 7 (some .name),
            node .callExpression 10 33 (some .value)
              [name 10 25 (some .function),
                node .arguments 25 33 (some .arguments)
                  [node .string 26 32 none [node .stringFragment 27 31 none []]]]]],
        node .functionDeclaration 35 96 none
          [name 44 48 (some .name),
            node (.other "formal_parameters") 48 93 (some .parameters)
              [parameter 49 50 (name 49 50 (some .pattern)),
                properties 52 57 (node .shorthandPropertyIdentifierPattern 54 55 none []),
                properties 59 67
                  (node .pairPattern 61 65 none
                    [node .propertyIdentifier 61 62 (some .key) [], name 64 65 (some .value)]),
                properties 69 78
                  (node .objectAssignmentPattern 71 76 none
                    [node .shorthandPropertyIdentifierPattern 71 72 (some .left) [],
                      node .number 75 76 none []]),
                properties 80 92
                  (node .pairPattern 82 90 none
                    [node .propertyIdentifier 82 83 (some .key) [],
                      node .assignmentPattern 85 90 (some .value)
                        [name 85 86 (some .left), node .number 89 90 none []]])],
            node .statementBlock 94 96 (some .body) []],
        node (.other "expression_statement") 97 133 none
          [node .callExpression 97 132 none
            [name 97 101 (some .function),
              node .arguments 101 132 (some .arguments)
                [name 102 103 none, carried 105, carried 112, carried 119, carried 126]]]] }

theorem followsGrammar_manyForms : manyForms.FollowsGrammar where
  program := rfl
  shorthand := by
    have hleft : ∀ c ∈ manyForms.places, c.kind = .objectAssignmentPattern →
        ∀ left ∈ c.child? .left, left.kind = .shorthandPropertyIdentifierPattern := by
      decide
    exact hleft
  token_leaf := by decide
  parameters_not_scope := by decide
  names_apart := by decide +kernel

/-- The project with this one file, where the hook needs no import. -/
def formsInUse : Resolver :=
  ⟨Project.ofUnits none [manyForms], { requireImport := false }⟩

/-- The hook's translator is handed on in all five forms, each time to a name of the function. -/
theorem indexes_worklist_manyForms :
    (∀ unit ∈ formsInUse.project.units, unit.FollowsGrammar) ∧
      ∃ t ∈ (formsInUse.hookTranslators manyForms {}).2,
        (∃ owner, formsInUse.project.Indexes t.site owner) ∧
        (formsInUse.forwarded t).map (fun s => s.site.label.start) = [49, 54, 64, 71, 85] ∧
        ∀ s ∈ formsInUse.forwarded t, ∃ function, function.kind.isFunction = true ∧
          formsInUse.project.Indexes s.site function := by
  have hproject : formsInUse.project.Coherent := Project.coherent_ofUnits none [manyForms]
  have hunits : formsInUse.project.units = [manyForms] := rfl
  have hgrammar : ∀ unit ∈ formsInUse.project.units, unit.FollowsGrammar := by
    rw [hunits]
    exact List.forall_mem_singleton.mpr followsGrammar_manyForms
  have hunit : manyForms ∈ formsInUse.project.units := hunits ▸ List.mem_singleton_self manyForms
  obtain ⟨hhook, hhanded⟩ := indexes_worklist none [manyForms] { requireImport := false } hgrammar
  obtain ⟨t, ht, hstarts⟩ : ∃ t ∈ (formsInUse.hookTranslators manyForms {}).2,
      (formsInUse.forwarded t).map (fun s => s.site.label.start) = [49, 54, 64, 71, 85] := by
    decide +kernel
  refine ⟨hgrammar, t, ht, (hhook manyForms hunit {} t ht).1, hstarts, fun s hs => ?_⟩
  have hholds := ((run_hookTranslators hunit {}).2 t ht).holds hproject
  obtain ⟨n, hn, hforward⟩ := mem_forwarded.mp hs
  have hnode : formsInUse.project.Holds n := among_of_mem_references hproject hholds.1 hn
  obtain ⟨-, _, _, function, _, _, -, hcallee, -, -, -, hindexes⟩ :=
    (hhanded n hnode t.space s).mp hforward
  exact ⟨function, Project.isFunction_of_callee? hproject hcallee, hindexes⟩

end Resolver

end MessageKeys
