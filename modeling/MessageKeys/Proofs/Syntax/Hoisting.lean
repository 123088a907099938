import MessageKeys.Proofs.Syntax.Visibility

/-!
# Where `var` names belong

In the language a name bound by `var` belongs to the function or file around it, however deep in
blocks and loops it stands.  There are two ways to bind one:

```text
var x = ...;    for (var x = ...; ...)       a declarator: the index hoists it
for (var x in ...)    for (var x of ...)     the head of a loop: the index leaves it in the loop
```

So a name bound by a declarator is owned by the function, one bound by the head of a loop is not.
`Cursor.hoisted` lists what a node declares with both hoisted, and `SourceUnit.firstHoisted?` is the
first declaration of a name in a function when they are.  A name in the function means that
declaration unless loops get in the way (`declarationOf?_eq_hoisted_iff`): inside a loop that binds
the name it means the loop's, and outside it never does.
-/

namespace MessageKeys.Syntax

open Cursor

namespace Cursor

/-- A loop over keys or values that binds its variables by `var`. -/
def IsVarLoop (c : Cursor) : Prop :=
  c.kind = .forInStatement ∧ (c.child? .kind).map Cursor.kind = some (.other "var")

instance (c : Cursor) : Decidable c.IsVarLoop :=
  inferInstanceAs (Decidable (_ ∧ _))

/-- The node binds the name by `var`. -/
inductive BindsVar (c : Cursor) : Cursor → Prop
  | declarator {parent binding : Cursor} (hkind : c.kind = .variableDeclarator)
      (hparent : c.parent? = some parent) (hvar : parent.kind = .variableDeclaration)
      (hbinding : binding ∈ c.bindingsOf .name) : BindsVar c binding
  | loop {binding : Cursor} (hloop : c.IsVarLoop) (hbinding : binding ∈ c.bindingsOf .left) :
      BindsVar c binding

/-- The loop binds a name with the text by `var`. -/
def LoopBinds (loop : Cursor) (name : Text) : Prop :=
  loop.IsVarLoop ∧ ∃ binding ∈ loop.bindingsOf .left, binding.text = name

instance (loop : Cursor) (name : Text) : Decidable (loop.LoopBinds name) :=
  inferInstanceAs (Decidable (_ ∧ _))

/-- Of the loops between a node and a function that bind the node's text by `var`, the loop is the
one next to the node. -/
structure InnermostLoop (n function loop : Cursor) : Prop where
  around : loop ∈ n.lineage
  inside : function ∈ loop.lineage
  binds : loop.LoopBinds n.text
  innermost : ∀ inner ∈ n.lineage, loop ∈ inner.lineage → ¬ inner.LoopBinds n.text

instance (n function loop : Cursor) : Decidable (InnermostLoop n function loop) :=
  decidable_of_iff (loop ∈ n.lineage ∧ function ∈ loop.lineage ∧ loop.LoopBinds n.text ∧
      ∀ inner ∈ n.lineage, loop ∈ inner.lineage → ¬ inner.LoopBinds n.text)
    ⟨fun h => ⟨h.1, h.2.1, h.2.2.1, h.2.2.2⟩,
      fun h => ⟨h.around, h.inside, h.binds, h.innermost⟩⟩

/-- The names that a node declares, each with its scope, if loops hoist their `var` names too. -/
def hoisted (c : Cursor) : List Declaration :=
  if c.IsVarLoop then Declaration.all c.hoistScope? (c.bindingsOf .left) else c.declarations

end Cursor

namespace SourceUnit

/-- The declarations of a file if loops hoist their `var` names too. -/
def hoistedDeclarations (unit : SourceUnit) : List Declaration :=
  unit.cursors.flatMap Cursor.hoisted

/-- Some node declares the name in the scope if loops hoist their `var` names too. -/
def Hoisted (unit : SourceUnit) (scope : Cursor) (name : Text) : Prop :=
  ∃ d ∈ unit.hoistedDeclarations, d.scope = scope ∧ d.name = name

instance (unit : SourceUnit) (scope : Cursor) (name : Text) : Decidable (unit.Hoisted scope name) :=
  inferInstanceAs (Decidable (∃ d ∈ _, _))

/-- The node is a reference inside the function, and no scope between them has its name if loops
hoist their `var` names too. -/
structure ExposedTo (unit : SourceUnit) (n function : Cursor) : Prop where
  mem : n ∈ unit.cursors
  free : (ScopeIndex.ofUnit unit).isBinding n = false
  inside : function ∈ n.lineage
  unshadowed : ∀ scope ∈ n.lineage, scope.kind.isScope = true → function ∈ scope.lineage →
    ¬ unit.Hoisted scope n.text

instance (unit : SourceUnit) (n function : Cursor) : Decidable (unit.ExposedTo n function) :=
  decidable_of_iff (n ∈ unit.cursors ∧ (ScopeIndex.ofUnit unit).isBinding n = false ∧
      function ∈ n.lineage ∧ ∀ scope ∈ n.lineage, scope.kind.isScope = true →
        function ∈ scope.lineage → ¬ unit.Hoisted scope n.text)
    ⟨fun h => ⟨h.1, h.2.1, h.2.2.1, h.2.2.2⟩,
      fun h => ⟨h.mem, h.free, h.inside, h.unshadowed⟩⟩

/-- The first declaration of a name in a scope if loops hoist their `var` names too. -/
def firstHoisted? (unit : SourceUnit) (scope : Cursor) (name : Text) : Option Cursor :=
  (unit.hoistedDeclarations.find? (Declaration.isOf scope name)).map Declaration.binding

end SourceUnit

namespace Cursor

variable {c loop scope binding function : Cursor} {name : Text} {d : Declaration}

/-! ## What a loop declares -/

theorem IsVarLoop.declares (h : loop.IsVarLoop) (hbinding : binding ∈ loop.bindingsOf .left) :
    loop.Declares loop binding := by
  refine .loop h.1 ?_ hbinding
  have hkeyword := h.2
  cases hchild : loop.child? .kind with
  | none => simp [hchild] at hkeyword
  | some _ => rfl

theorem IsVarLoop.isScope (h : loop.IsVarLoop) : loop.kind.isScope = true := by
  rw [h.1]
  rfl

/-- A loop declares its variables, and them in itself. -/
theorem IsVarLoop.of_declares (h : loop.IsVarLoop) (hdeclares : loop.Declares scope binding) :
    scope = loop ∧ binding ∈ loop.bindingsOf .left := by
  have hkind := h.1
  cases hdeclares with
  | loop _ _ hbinding => exact ⟨rfl, hbinding⟩
  | declarator hother | caught hother | imported hother => simp [hkind] at hother
  | name hother => simp [hkind, Kind.isFunctionDeclaration] at hother
  | innerName hother => simp [hkind, Kind.isNamedFunctionExpression] at hother
  | parameter hother => simp [hkind, Kind.isFunction] at hother

theorem IsVarLoop.not_isHoistTarget (h : loop.IsVarLoop) : loop.kind.isHoistTarget = false := by
  rw [h.1]
  rfl

/-- In a function or file, a loop declares nothing. -/
theorem IsVarLoop.find?_declarations (h : loop.IsVarLoop)
    (hfunction : function.kind.isHoistTarget = true) :
    loop.declarations.find? (Declaration.isOf function name) = none := by
  apply List.find?_eq_none.mpr
  intro d hd htest
  obtain ⟨hscope, _⟩ := h.of_declares (of_mem_declarations hd).1
  rw [← (ScopeIndex.isOf_iff.mp htest).1, hscope, h.not_isHoistTarget] at hfunction
  simp at hfunction

/-- The loop is what the pattern of its variables belongs to. -/
theorem IsVarLoop.patternOwner?_eq (h : loop.IsVarLoop)
    (hbinding : binding ∈ loop.bindingsOf .left) : binding.patternOwner? = some loop := by
  obtain ⟨pattern, hfound, hmem⟩ := mem_bindingsOf.mp hbinding
  rw [(of_mem_patternBindings hmem).2]
  exact patternOwner?_of_mem_children (mem_children_of_child? hfound)
    (isPattern_of_isScope h.isScope)

/-! ## What is hoisted -/

theorem hoisted_of_not_isVarLoop (h : ¬ c.IsVarLoop) : c.hoisted = c.declarations :=
  if_neg h

theorem IsVarLoop.hoisted_eq (h : loop.IsVarLoop) :
    loop.hoisted = Declaration.all loop.hoistScope? (loop.bindingsOf .left) :=
  if_pos h

theorem name_eq_text_of_mem_hoisted (h : d ∈ c.hoisted) : d.name = d.binding.text := by
  by_cases hloop : c.IsVarLoop
  · rw [hloop.hoisted_eq] at h
    obtain ⟨_, _, _, _, rfl⟩ := mem_all.mp h
    rfl
  · rw [hoisted_of_not_isVarLoop hloop] at h
    exact (of_mem_declarations h).2

/-- A name bound by `var` is hoisted to the function or file around it. -/
theorem BindsVar.mem_hoisted (h : c.BindsVar binding) (hfunction : c.hoistScope? = some function) :
    Declaration.of function binding ∈ c.hoisted := by
  cases h with
  | declarator hkind hparent hvar hbinding =>
      have hloop : ¬ c.IsVarLoop := by
        rintro ⟨hloopKind, _⟩
        simp [hkind] at hloopKind
      have hscope : c.declaratorScope? = some function := by
        simp [declaratorScope?, hparent, hvar, hfunction]
      rw [hoisted_of_not_isVarLoop hloop]
      exact (Declares.declarator hkind hscope hbinding).mem_declarations
  | loop hloop hbinding =>
      rw [hloop.hoisted_eq]
      exact mem_all.mpr ⟨function, binding, hfunction, hbinding, rfl⟩

end Cursor

namespace SourceUnit

variable {unit : SourceUnit} {c loop scope function first binding n : Cursor} {name : Text}

/-- A scope has a name from the index only if it has it with `var` names hoisted, or is a loop that
binds the name. -/
theorem hoisted_or_loopBinds (h : unit.Declared scope name) :
    unit.Hoisted scope name ∨ scope.LoopBinds name := by
  obtain ⟨c, hc, binding, hdeclares, rfl⟩ := h
  by_cases hloop : c.IsVarLoop
  · obtain ⟨rfl, hbinding⟩ := hloop.of_declares hdeclares
    exact Or.inr ⟨hloop, binding, hbinding, rfl⟩
  · refine Or.inl ⟨Declaration.of scope binding, List.mem_flatMap.mpr ⟨c, hc, ?_⟩, rfl, rfl⟩
    rw [hoisted_of_not_isVarLoop hloop]
    exact hdeclares.mem_declarations

/-- The first hoisted declaration of a name comes from some node, with nothing for the name before
it. -/
theorem of_firstHoisted? (h : unit.firstHoisted? function name = some first) :
    ∃ front c back, unit.cursors = front ++ c :: back ∧
      c.hoisted.find? (Declaration.isOf function name) = some (Declaration.of function first) ∧
      ∀ e ∈ front, e.hoisted.find? (Declaration.isOf function name) = none := by
  rw [firstHoisted?, hoistedDeclarations, List.find?_flatMap] at h
  obtain ⟨d, hfound, rfl⟩ := Option.map_eq_some_iff.mp h
  obtain ⟨front, c, back, hsplit, hd, hfront⟩ := List.findSome?_eq_some_iff.mp hfound
  refine ⟨front, c, back, hsplit, ?_, hfront⟩
  have hname := name_eq_text_of_mem_hoisted (List.mem_of_find?_eq_some hd)
  obtain ⟨hscope, _⟩ := ScopeIndex.isOf_iff.mp (List.find?_some hd)
  rw [hd, Declaration.of, ← hscope, ← hname]

theorem exists_firstHoisted? (hc : c ∈ unit.cursors) (hvar : c.BindsVar binding)
    (hfunction : c.hoistScope? = some function) :
    ∃ first, unit.firstHoisted? function binding.text = some first := by
  have hmem := List.mem_flatMap.mpr ⟨c, hc, hvar.mem_hoisted hfunction⟩
  cases hfound : unit.hoistedDeclarations.find? (Declaration.isOf function binding.text) with
  | none =>
      have hmissed := List.find?_eq_none.mp hfound _ hmem
      exact absurd (ScopeIndex.isOf_iff.mpr ⟨rfl, rfl⟩) hmissed
  | some d => exact ⟨d.binding, by rw [firstHoisted?, hfound]; rfl⟩

end SourceUnit

namespace SourceUnit.Indexable

variable {unit : SourceUnit} {c loop function first binding : Cursor} {name : Text}

/-- If the first hoisted declaration is a variable of a loop, it is the loop that hoists it. -/
theorem find?_hoisted_of_mem_bindingsOf (h : unit.Indexable)
    (hfunction : function.kind.isHoistTarget = true)
    (hfirst : unit.firstHoisted? function name = some first) (hloop : loop ∈ unit.cursors)
    (hvar : loop.IsVarLoop) (hbinding : first ∈ loop.bindingsOf .left) :
    loop.hoistScope? = some function ∧ loop.hoisted.find? (Declaration.isOf function name) =
      some (Declaration.of function first) := by
  obtain ⟨front, c, back, hsplit, hfound, _⟩ := of_firstHoisted? hfirst
  have hc : c ∈ unit.cursors := by simp [hsplit]
  have hmem := List.mem_of_find?_eq_some hfound
  by_cases hcloop : c.IsVarLoop
  · rw [hcloop.hoisted_eq] at hmem
    obtain ⟨owner, found, howner, hfoundMem, heq⟩ := mem_all.mp hmem
    simp only [Declaration.of, Declaration.mk.injEq] at heq
    obtain ⟨rfl, rfl, _⟩ := heq
    have hsame := (hcloop.patternOwner?_eq hfoundMem).symm.trans (hvar.patternOwner?_eq hbinding)
    obtain rfl := Option.some.inj hsame
    exact ⟨howner, hfound⟩
  · -- what the index declares in a function it does not declare in a loop
    rw [hoisted_of_not_isVarLoop hcloop] at hmem
    have hinFunction := h.declaringScope?_eq hc (of_mem_declarations hmem).1
    have hinLoop := h.declaringScope?_eq hloop (hvar.declares hbinding)
    have hsame : function = loop := Option.some.inj (hinFunction.symm.trans hinLoop)
    rw [hsame, hvar.not_isHoistTarget] at hfunction
    simp at hfunction

theorem owner?_eq_loop (h : unit.Indexable) (hc : c ∈ unit.cursors) (hvar : c.BindsVar binding)
    (hloop : c.IsVarLoop) : (ScopeIndex.ofUnit unit).owner? binding = some c := by
  cases hvar with
  | declarator hkind => simp [hloop.1] at hkind
  | loop _ hbinding => exact h.owner?_eq hc (hloop.declares hbinding)

theorem owner?_eq_hoistScope_iff (h : unit.Indexable) (hc : c ∈ unit.cursors)
    (hvar : c.BindsVar binding) (hfunction : c.hoistScope? = some function) :
    (ScopeIndex.ofUnit unit).owner? binding = some function ↔ ¬ c.IsVarLoop := by
  constructor
  · intro howner hloop
    rw [h.owner?_eq_loop hc hvar hloop] at howner
    have hnot := hloop.not_isHoistTarget
    rw [Option.some.inj howner, kind_of_ancestor? hfunction] at hnot
    simp at hnot
  · intro hloop
    have hmem := hvar.mem_hoisted hfunction
    rw [hoisted_of_not_isVarLoop hloop] at hmem
    exact h.owner?_eq hc (of_mem_declarations hmem).1

end SourceUnit.Indexable

namespace ScopeIndex

variable {unit : SourceUnit} {c loop function first binding n : Cursor} {name : Text}

/-! ## Look-up in loops and functions -/

/-- In a loop that binds a name, look-up gives the first of the loop's variables with the name. -/
theorem lookup?_of_loopBinds (hapart : unit.ScopesApart) (hmem : loop ∈ unit.cursors)
    (h : loop.LoopBinds name) :
    ∃ binding, (loop.bindingsOf .left).find? (fun found => decide (found.text = name)) =
        some binding ∧ (ofUnit unit).lookup? loop name = some binding := by
  obtain ⟨hloop, known, hknown, htext⟩ := h
  cases hfound : (loop.bindingsOf .left).find? fun found => decide (found.text = name) with
  | none =>
      have hmissed := List.find?_eq_none.mp hfound known hknown
      simp [htext] at hmissed
  | some binding =>
      refine ⟨binding, rfl, ?_⟩
      apply lookup?_of_own (hapart loop hmem hloop.isScope) hmem (d := Declaration.of loop binding)
      have hkeyword : (loop.child? .kind).isSome = true := by
        rw [← Option.isSome_map (f := Cursor.kind), hloop.2]
        rfl
      have hown : loop.declarations = Declaration.all (some loop) (loop.bindingsOf .left) := by
        simp [Cursor.declarations, hloop.1, hkeyword]
      rw [hown, find?_all_self, hfound]
      rfl

/-- Look-up in a function gives the first hoisted declaration if no loop is what hoists it. -/
theorem lookup?_eq_firstHoisted? (hapart : unit.TellsApart function)
    (hfunction : function.kind.isHoistTarget = true)
    (hfirst : unit.firstHoisted? function name = some first)
    (hloops : ∀ loop ∈ unit.cursors, loop.IsVarLoop → first ∉ loop.bindingsOf .left) :
    (ofUnit unit).lookup? function name = some first := by
  obtain ⟨front, c, back, hsplit, hd, hfront⟩ := SourceUnit.of_firstHoisted? hfirst
  have hcloop : ¬ c.IsVarLoop := by
    intro hcloop
    have hmem := List.mem_of_find?_eq_some hd
    rw [hcloop.hoisted_eq] at hmem
    obtain ⟨_, found, _, hfound, heq⟩ := mem_all.mp hmem
    have hsame : found = first := congrArg Declaration.binding heq
    exact hloops c (by simp [hsplit]) hcloop (hsame ▸ hfound)
  have hnone : ∀ e ∈ front, e.declarations.find? (Declaration.isOf function name) = none := by
    intro e he
    by_cases heloop : e.IsVarLoop
    · exact heloop.find?_declarations hfunction
    · rw [← hoisted_of_not_isVarLoop heloop]
      exact hfront e he
  rw [hoisted_of_not_isVarLoop hcloop] at hd
  have hfound : (ofUnit unit).declarations.find? (Declaration.isOf function name) =
      some (Declaration.of function first) := by
    rw [ofUnit, List.find?_flatMap]
    exact List.findSome?_eq_some_iff.mpr ⟨front, c, back, hsplit, hd, hnone⟩
  rw [lookup?_eq_find? hapart, hfound]
  rfl

/-! ## What a name in a function means -/

/-- Inside a loop that binds its text, and no scope between, a node means the loop's variable. -/
theorem declarationOf?_of_innermostLoop (hapart : unit.ScopesApart)
    (hn : unit.ExposedTo n function) (hloop : InnermostLoop n function loop) :
    ∃ binding, (loop.bindingsOf .left).find? (fun found => decide (found.text = n.text)) =
        some binding ∧ (ofUnit unit).declarationOf? n = some binding := by
  have hmem := mem_cursors_of_mem_lineage hn.mem hloop.around
  obtain ⟨binding, hfound, hlookup⟩ := lookup?_of_loopBinds hapart hmem hloop.binds
  refine ⟨binding, hfound, ?_⟩
  rw [declarationOf?_eq_or hapart hn.mem hn.free hloop.around hloop.binds.1.isScope ?_, hlookup]
  · rfl
  · intro scope hscope hkind hbetween hdeclared
    rcases SourceUnit.hoisted_or_loopBinds hdeclared with hhoisted | hbinds
    · exact hn.unshadowed scope hscope hkind (mem_lineage_trans hloop.inside hbetween) hhoisted
    · exact hloop.innermost scope hscope hbetween hbinds

/-- Inside the loop a node means the first hoisted declaration just if the loop is what hoists
it. -/
theorem declarationOf?_eq_first_iff_of_innermostLoop (h : unit.Indexable)
    (hfunction : function.kind.isHoistTarget = true) (hn : unit.ExposedTo n function)
    (hfirst : unit.firstHoisted? function n.text = some first)
    (hloop : InnermostLoop n function loop) :
    (ofUnit unit).declarationOf? n = some first ↔ first ∈ loop.bindingsOf .left := by
  obtain ⟨binding, hfound, hmeans⟩ := declarationOf?_of_innermostLoop h.scopes hn hloop
  rw [hmeans]
  constructor
  · intro heq
    exact Option.some.inj heq ▸ List.mem_of_find?_eq_some hfound
  · intro hbinding
    obtain ⟨hhoist, hd⟩ := h.find?_hoisted_of_mem_bindingsOf hfunction hfirst
      (mem_cursors_of_mem_lineage hn.mem hloop.around) hloop.binds.1 hbinding
    rw [hloop.binds.1.hoisted_eq, hhoist, find?_all_self, hfound] at hd
    exact congrArg some (congrArg Declaration.binding (Option.some.inj hd))

/-- Outside all loops that bind its text a node means the first hoisted declaration just if no loop
is what hoists it. -/
theorem declarationOf?_eq_first_iff_of_outside (h : unit.Indexable)
    (hfunction : function.kind.isHoistTarget = true) (hn : unit.ExposedTo n function)
    (hfirst : unit.firstHoisted? function n.text = some first)
    (houtside : ∀ loop ∈ n.lineage, function ∈ loop.lineage → ¬ loop.LoopBinds n.text) :
    (ofUnit unit).declarationOf? n = some first ↔
      ∀ loop ∈ unit.cursors, loop.IsVarLoop → first ∉ loop.bindingsOf .left := by
  have hscope := isScope_of_isHoistTarget hfunction
  constructor
  · intro hmeans loop hloop hvar hbinding
    obtain ⟨hhoist, hd⟩ := h.find?_hoisted_of_mem_bindingsOf hfunction hfirst hloop hvar hbinding
    obtain ⟨_, htext⟩ := isOf_iff.mp (List.find?_some hd)
    -- look-up has found the name in the loop, so the loop is around the node
    obtain ⟨scope, hscope, hlookup⟩ := of_declarationOf? hn.free hmeans
    obtain ⟨e, he, hkey, _, hsame⟩ := of_lookup? hlookup
    obtain ⟨c, hc, hec⟩ := mem_declarations_ofUnit.mp he
    have hinScope := h.declaringScope?_eq hc (of_mem_declarations hec).1
    rw [hsame, h.declaringScope?_eq hloop (hvar.declares hbinding)] at hinScope
    rw [← Option.some.inj hinScope] at hkey
    have hscopeMem := mem_cursors_of_mem_lineage hn.mem hscope
    obtain rfl := h.scopes loop hloop hvar.isScope scope hscopeMem hkey.symm
    exact houtside scope hscope (mem_lineage_of_ancestor? hhoist) ⟨hvar, first, hbinding, htext⟩
  · intro hloops
    have hmem := mem_cursors_of_mem_lineage hn.mem hn.inside
    rw [declarationOf?_eq_or h.scopes hn.mem hn.free hn.inside hscope ?_,
      lookup?_eq_firstHoisted? (h.scopes function hmem hscope) hfunction hfirst hloops]
    · rfl
    · intro scope hscope hkind hbetween hdeclared
      rcases SourceUnit.hoisted_or_loopBinds hdeclared with hhoisted | hbinds
      · exact hn.unshadowed scope hscope hkind hbetween hhoisted
      · exact houtside scope hscope hbetween hbinds

/-- A name bound by `var` is owned by the function or file around it just if no loop binds it; a
loop owns its names itself.  A name in the function that no scope between shadows means the first
declaration there, `var` names hoisted, under this condition: inside a loop that binds the name, if
the declaration is the loop's, and outside all such loops, if it is no loop's. -/
theorem declarationOf?_eq_hoisted_iff (unit : SourceUnit) (c binding function : Cursor)
    (h : unit.Indexable) (hc : c ∈ unit.cursors) (hvar : c.BindsVar binding)
    (hfunction : c.hoistScope? = some function) :
    ((ofUnit unit).owner? binding = some function ↔ ¬ c.IsVarLoop) ∧
      (c.IsVarLoop → (ofUnit unit).owner? binding = some c) ∧
      ∃ first, unit.firstHoisted? function binding.text = some first ∧
        ∀ n, unit.ExposedTo n function → n.text = binding.text →
          (∀ loop, InnermostLoop n function loop →
            ((ofUnit unit).declarationOf? n = some first ↔ first ∈ loop.bindingsOf .left)) ∧
          ((∀ loop ∈ n.lineage, function ∈ loop.lineage → ¬ loop.LoopBinds n.text) →
            ((ofUnit unit).declarationOf? n = some first ↔
              ∀ loop ∈ unit.cursors, loop.IsVarLoop → first ∉ loop.bindingsOf .left)) := by
  have htarget := kind_of_ancestor? hfunction
  refine ⟨h.owner?_eq_hoistScope_iff hc hvar hfunction, h.owner?_eq_loop hc hvar, ?_⟩
  obtain ⟨first, hfirst⟩ := SourceUnit.exists_firstHoisted? hc hvar hfunction
  refine ⟨first, hfirst, fun n hn htext => ?_⟩
  rw [← htext] at hfirst
  exact ⟨fun loop => declarationOf?_eq_first_iff_of_innermostLoop h htarget hn hfirst,
    declarationOf?_eq_first_iff_of_outside h htarget hn hfirst⟩

/-- A function over `xs` with some statements, then `for (var t of xs) t; t;`. -/
def overLoop (source : String) (statements : List Node) : SourceUnit :=
  let node (kind : Kind) (start stop : Nat) (field : Option Field) (children : List Node) : Node :=
    .mk ⟨kind, true, false, start, stop, ⟨0, start⟩, field⟩ children
  let use (start : Nat) : Node :=
    node (.other "expression_statement") start (start + 2) none
      [node .identifier start (start + 1) none []]
  { path := "t.ts"
    source := source.toUTF8.data
    root := node .program 0 49 none
      [node .functionDeclaration 0 49 none
        [node .identifier 9 10 (some .name) [],
          node (.other "formal_parameters") 10 14 (some .parameters)
            [node .requiredParameter 11 13 none [node .identifier 11 13 (some .pattern) []]],
          node .statementBlock 15 49 (some .body) (statements ++
            [node .forInStatement 24 44 none
              [.mk ⟨.other "var", false, false, 29, 32, ⟨0, 29⟩, some .kind⟩ [],
                node .identifier 33 34 (some .left) [], node .identifier 38 40 none [], use 42],
              use 45])]] }

/-- The file in which the function also declares `t` before the loop. -/
def declaredBeforeLoop : SourceUnit :=
  overLoop "function f(xs) { var t; for (var t of xs) t; t; }"
    [.mk ⟨.variableDeclaration, true, false, 17, 23, ⟨0, 17⟩, none⟩
      [.mk ⟨.variableDeclarator, true, false, 21, 22, ⟨0, 21⟩, none⟩
        [.mk ⟨.identifier, true, false, 21, 22, ⟨0, 21⟩, some .name⟩ []]]]

/-- The declaration before the loop is owned by the function and is what `t` means behind the loop,
but not what it means inside. -/
theorem declarationOf?_eq_hoisted_beforeLoop :
    declaredBeforeLoop.Indexable ∧ ∃ function first,
      function.kind = .functionDeclaration ∧ first.label.start = 21 ∧
        (ofUnit declaredBeforeLoop).owner? first = some function ∧
        (∃ n ∈ declaredBeforeLoop.cursors, n.label.start = 45 ∧
          (ofUnit declaredBeforeLoop).declarationOf? n = some first) ∧
        ∃ n ∈ declaredBeforeLoop.cursors, n.label.start = 42 ∧
          (ofUnit declaredBeforeLoop).declarationOf? n ≠ some first := by
  have hindexable : declaredBeforeLoop.Indexable := ⟨by decide, by decide, by decide⟩
  obtain ⟨c, hc, hkind, ⟨parent, hparent, hvar⟩, binding, hbinding, hstart, hname, function,
      hfunction, hfunctionKind, hfirst⟩ : ∃ c ∈ declaredBeforeLoop.cursors,
      c.kind = .variableDeclarator ∧ (∃ parent ∈ c.parent?, parent.kind = .variableDeclaration) ∧
        ∃ binding ∈ c.bindingsOf .name, binding.label.start = 21 ∧ binding.text = "t" ∧
          ∃ function ∈ c.hoistScope?, function.kind = .functionDeclaration ∧
            declaredBeforeLoop.firstHoisted? function binding.text = some binding := by
    decide
  have hbehind : ∀ function ∈ declaredBeforeLoop.cursors, function.kind = .functionDeclaration →
      ∃ n ∈ declaredBeforeLoop.cursors, n.label.start = 45 ∧ n.text = "t" ∧
        declaredBeforeLoop.ExposedTo n function ∧
          ∀ loop ∈ n.lineage, function ∈ loop.lineage → ¬ loop.LoopBinds n.text := by
    decide
  have hwithin : ∀ function ∈ declaredBeforeLoop.cursors, function.kind = .functionDeclaration →
      ∃ n ∈ declaredBeforeLoop.cursors, n.label.start = 42 ∧ n.text = "t" ∧
        declaredBeforeLoop.ExposedTo n function ∧
          ∃ loop ∈ n.lineage, InnermostLoop n function loop := by
    decide
  have hloops : ∀ loop ∈ declaredBeforeLoop.cursors, loop.IsVarLoop →
      ∀ found ∈ loop.bindingsOf .left, found.label.start = 33 := by
    decide
  have hbefore : ∀ loop ∈ declaredBeforeLoop.cursors, loop.IsVarLoop →
      binding ∉ loop.bindingsOf .left := by
    intro loop hloop hvarLoop hmem
    have hfound := hloops loop hloop hvarLoop binding hmem
    simp [hstart] at hfound
  obtain ⟨howner, _, first, hsome, hmeans⟩ := declarationOf?_eq_hoisted_iff declaredBeforeLoop c
    binding function hindexable hc (.declarator hkind hparent hvar hbinding) hfunction
  obtain rfl := Option.some.inj (hfirst.symm.trans hsome)
  have hmem := mem_cursors_of_mem_lineage hc (mem_lineage_of_ancestor? hfunction)
  obtain ⟨n, hn, hnstart, htext, hexposed, houtside⟩ := hbehind function hmem hfunctionKind
  obtain ⟨m, hm, hmstart, hmtext, hmexposed, loop, hloop, hinner⟩ :=
    hwithin function hmem hfunctionKind
  have hnotLoop : ¬ c.IsVarLoop := by
    rintro ⟨hloopKind, _⟩
    simp [hkind] at hloopKind
  refine ⟨hindexable, function, binding, hfunctionKind, hstart, howner.mpr hnotLoop,
    ⟨n, hn, hnstart, ?_⟩, m, hm, hmstart, ?_⟩
  · exact ((hmeans n hexposed (htext.trans hname.symm)).2 houtside).mpr hbefore
  · rw [Ne, (hmeans m hmexposed (hmtext.trans hname.symm)).1 loop hinner]
    exact hbefore loop (mem_cursors_of_mem_lineage hm hloop) hinner.binds.1

/-- The file in which only the loop binds `t`. -/
def declaredByLoop : SourceUnit :=
  overLoop "function f(xs) {        for (var t of xs) t; t; }" []

/-- The loop's `t` is not owned by the function, and behind the loop `t` means nothing. -/
theorem owner?_ne_hoistScope_loop :
    declaredByLoop.Indexable ∧ ∃ c ∈ declaredByLoop.cursors, c.IsVarLoop ∧
      ∃ binding ∈ c.bindingsOf .left, ∃ function ∈ c.hoistScope?,
        (ofUnit declaredByLoop).owner? binding ≠ some function ∧
          declaredByLoop.firstHoisted? function binding.text = some binding ∧
            ∃ n ∈ declaredByLoop.cursors, declaredByLoop.ExposedTo n function ∧
              n.text = binding.text ∧ (ofUnit declaredByLoop).declarationOf? n = none :=
  ⟨⟨by decide, by decide, by decide⟩, by decide +kernel⟩

end ScopeIndex

end MessageKeys.Syntax
