import MessageKeys.Proofs.Project.Coherence
import MessageKeys.Proofs.Syntax.TopLevel
import MessageKeys.Proofs.Syntax.Visibility
import MessageKeys.Usage.Callee

/-!
# Calls of members

A call `x.m(...)` invokes a member of what `x` names: an object literal or the body of a class.  Two
lists of kinds have to fit together for this.  One says which declarations name such a container
(`NamesContainer`), the other which declarations the scope index knows at all.

They differ in abstract classes.  For all other containers a call invokes the first member with the
name (`FirstMember`), and nothing if there is none.  An abstract class names a container, but the
index has no declaration for it, so a call goes past it to what `x` means further out, mostly to
nothing (`Project.callee?_eq_firstMember_iff`).
-/

namespace MessageKeys

open Syntax Cursor

namespace Syntax.SourceUnit.Indexable

variable {unit : SourceUnit} {c n parent scope : Cursor}

/-- A node whose parent neither is a pattern nor declares names is declared nowhere. -/
theorem not_declares (h : unit.Indexable) (hc : c ∈ unit.cursors)
    (hparent : n.parent? = some parent) (hpattern : parent.kind.isPattern = false)
    (howner : parent.kind.isOwner = false) : ¬ c.Declares scope n := by
  intro hdeclares
  obtain ⟨owner, hfound, hkind⟩ := hdeclares.owner fun list hlist =>
    h.parameters list (mem_unit_places.mpr ((In.of_mem_cursors hc).child? hlist))
      (field_of_child? hlist)
  rw [patternOwner?_of_parent? hparent, hpattern] at hfound
  obtain rfl : parent = owner := Option.some.inj hfound
  rw [howner] at hkind
  simp at hkind

theorem isBinding_eq_false (h : unit.Indexable) (hn : In unit n) (hparent : n.parent? = some parent)
    (hpattern : parent.kind.isPattern = false) (howner : parent.kind.isOwner = false) :
    (ScopeIndex.ofUnit unit).isBinding n = false := by
  rw [← Bool.not_eq_true]
  intro hbinding
  obtain ⟨d, hd, hkey⟩ := ScopeIndex.isBinding_iff.mp hbinding
  obtain rfl := h.names d hd n (mem_unit_places.mpr hn) hkey.symm
  obtain ⟨c, hc, hdc⟩ := ScopeIndex.mem_declarations_ofUnit.mp hd
  exact h.not_declares hc hparent hpattern howner (of_mem_declarations hdc).1

end Syntax.SourceUnit.Indexable

namespace Callee

variable {unit : SourceUnit} {declaration scope name container member f : Cursor}
  {property : Text}

/-! ## Containers and their members -/

/-- The declaration gives an object literal or the body of a class a name in a scope. -/
inductive NamesContainer (declaration scope name container : Cursor) : Prop
  | body
      (hkind : declaration.kind = .classDeclaration ∨ declaration.kind = .abstractClassDeclaration)
      (hscope : declaration.enclosingScope? = some scope)
      (hname : declaration.child? .name = some name)
      (hbody : declaration.child? .body = some container)
  | value {value : Cursor} (hkind : declaration.kind = .variableDeclarator)
      (hscope : declaration.declaratorScope? = some scope)
      (hname : declaration.child? .name = some name) (hidentifier : name.kind = .identifier)
      (hvalue : declaration.child? .value = some value)
      (hcontainer : value.kind = .object ∧ value = container ∨
        value.kind = .classExpression ∧ value.child? .body = some container)

/-- The member is the function with the name: a method, or the value of a property or field. -/
inductive IsMember (member : Cursor) (property : Text) : Cursor → Prop
  | method (hkind : member.kind = .methodDefinition)
      (hname : (member.child? .name).bind propertyName? = some property) :
      IsMember member property member
  | value {value : Cursor}
      (hkind : member.kind = .pair ∨ member.kind = .publicFieldDefinition ∨
        member.kind = .fieldDefinition)
      (hname : ((member.child? .key).or (member.child? .name)).bind propertyName? = some property)
      (hvalue : member.child? .value = some value) (hfunction : value.kind.isFunction = true) :
      IsMember member property value

/-- In source order, the function is the first member of the container with the name. -/
def FirstMember (container : Cursor) (property : Text) (f : Cursor) : Prop :=
  ∃ front member back, container.namedChildren = front ++ member :: back ∧
    IsMember member property f ∧ ∀ other ∈ front, ∀ g, ¬ IsMember other property g

theorem findSome?_eq_some_iff_first {α β : Type} {f : α → Option β} {p : α → β → Prop}
    (hf : ∀ a b, f a = some b ↔ p a b) {l : List α} {b : β} :
    l.findSome? f = some b ↔
      ∃ front a back, l = front ++ a :: back ∧ p a b ∧ ∀ other ∈ front, ∀ b, ¬ p other b := by
  have hnone : ∀ a, f a = none ↔ ∀ b, ¬ p a b := fun a => by
    simp [Option.eq_none_iff_forall_ne_some, hf]
  simp only [List.findSome?_eq_some_iff, hf, hnone]

/-- The search for a member finds the first. -/
theorem memberFunction?_eq_some_iff :
    memberFunction? container property = some f ↔ FirstMember container property f := by
  unfold memberFunction?
  refine findSome?_eq_some_iff_first fun member f => ⟨fun h => ?_, fun h => ?_⟩
  · -- the kinds of the search are those of the members
    have hvalue : ∀ {value : Cursor}, (member.kind = .pair ∨ member.kind = .publicFieldDefinition ∨
        member.kind = .fieldDefinition) → member.child? .value = some value →
        (((member.child? .key).or (member.child? .name)).bind propertyName? = some property &&
          value.kind.isFunction) = true → IsMember member property value := by
      intro value hkind hfound htest
      rw [Bool.and_eq_true, decide_eq_true_eq] at htest
      exact .value hkind htest.1 hfound htest.2
    split at h
    case h_1 hkind =>
      rw [Option.ite_none_right_eq_some] at h
      exact Option.some.inj h.2 ▸ .method hkind h.1
    case h_5 => simp at h
    all_goals
      rename_i hkind
      dsimp only at h
      split at h
      · rename_i value hfound
        rw [Option.ite_none_right_eq_some] at h
        exact Option.some.inj h.2 ▸ hvalue (by simp [hkind]) hfound h.1
      · simp at h
  · cases h with
    | method hkind hname => simp [hkind, hname]
    | value hkind hname hfound hfunction =>
        rcases hkind with hkind | hkind | hkind <;> simp [hkind, hname, hfound, hfunction]

/-! ## From a name to its container -/

theorem NamesContainer.child?_name (h : NamesContainer declaration scope name container) :
    declaration.child? .name = some name := by
  cases h with
  | body _ _ hname _ | value _ _ hname _ _ _ => exact hname

theorem NamesContainer.isScope (h : NamesContainer declaration scope name container) :
    scope.kind.isScope = true := by
  cases h with
  | body _ hscope _ _ => exact kind_of_ancestor? hscope
  | value _ hscope _ _ _ _ =>
      unfold declaratorScope? at hscope
      split at hscope
      · exact isScope_of_isHoistTarget (kind_of_ancestor? hscope)
      · exact kind_of_ancestor? hscope

theorem NamesContainer.container?_name (h : NamesContainer declaration scope name container) :
    container? name = some container := by
  have hparent := parent?_of_child? h.child?_name
  unfold container?
  cases h with
  | body hkind _ _ hbody => rcases hkind with hkind | hkind <;> simp [hparent, hkind, hbody]
  | value hkind _ _ _ hvalue hcontainer =>
      rcases hcontainer with ⟨hobject, rfl⟩ | ⟨hclass, hbody⟩
      · simp [hparent, hkind, hvalue, hobject]
      · simp [hparent, hkind, hvalue, hclass, hbody]

/-- The index knows the declaration of every container but an abstract class. -/
theorem NamesContainer.declares (h : NamesContainer declaration scope name container)
    (hkind : declaration.kind ≠ .abstractClassDeclaration) : declaration.Declares scope name := by
  cases h with
  | body hclass hscope hname _ => exact .name (Or.inr (hclass.resolve_right hkind)) hscope hname
  | value hvariable hscope hname hidentifier _ _ =>
      refine .declarator hvariable hscope (mem_bindingsOf.mpr ⟨name, hname, ?_⟩)
      rw [patternBindings_eq, if_pos (Or.inl hidentifier)]
      exact List.mem_singleton_self name

/-- The function that a member access stands for if its receiver is a name with the declaration. -/
def memberOf? (project : Project) (property : Text) (declaration : Cursor) : Option Cursor :=
  match container? declaration with
  | some container => memberFunction? container property
  | none =>
      match imported? project declaration with
      | some (target, importedName) =>
          if importedName = wholeModule then exported? project target property else none
      | none => none

/-- The call invokes a member of the receiver. -/
structure CallsOn (call receiver : Cursor) (property : Text) : Prop where
  isName : receiver.kind = .identifier
  callee : ∃ access ∈ call.child? .function, access.kind = .memberExpression ∧
    access.child? .object = some receiver ∧
      (access.child? .property).bind propertyName? = some property

/-- The receiver of a call is a reference, no declared name. -/
theorem CallsOn.isBinding_eq_false {call receiver : Cursor} (h : CallsOn call receiver property)
    (hunit : unit.Indexable) (hreceiver : In unit receiver) :
    (ScopeIndex.ofUnit unit).isBinding receiver = false := by
  obtain ⟨access, _, haccess, hobject, _⟩ := h.callee
  apply hunit.isBinding_eq_false hreceiver (parent?_of_child? hobject)
  · rw [haccess]
    rfl
  · rw [haccess]
    rfl

theorem CallsOn.callee?_eq (project : Project) {call receiver : Cursor}
    (h : CallsOn call receiver property) :
    project.callee? call = ((project.index receiver.unit).declarationOf? receiver).bind
      (memberOf? project property) := by
  obtain ⟨access, hcallee, haccess, hreceiver, hproperty⟩ := h.callee
  rw [Option.mem_def] at hcallee
  have hmember : project.callee? call = member? project access := by
    simp [Project.callee?, hcallee, haccess, Kind.isReference]
  have hthis : receiver.kind ≠ .thisExpression := by simp [h.isName]
  have hreference : receiver.kind.isReference = true := by rw [h.isName]; rfl
  rw [hmember, member?, hreceiver, hproperty]
  simp only [hthis, hreference, if_false, if_true]
  cases (project.index receiver.unit).declarationOf? receiver with
  | none => rfl
  | some declaration => rfl

/-- The receiver of a call refers to the declaration of a container: there is no other declaration
of the name in the scope or in a scope between. -/
structure CallsDeclared (unit : SourceUnit)
    (declaration scope name container call receiver : Cursor) (property : Text) : Prop where
  declaration_mem : declaration ∈ unit.cursors
  names : NamesContainer declaration scope name container
  only : ∀ c ∈ unit.cursors, ∀ other, c.Declares scope other → other.text = name.text → other = name
  calls : CallsOn call receiver property
  receiver_mem : receiver ∈ unit.cursors
  text : receiver.text = name.text
  inside : scope ∈ receiver.lineage
  between : ∀ inner ∈ receiver.lineage, inner.kind.isScope = true → scope ∈ inner.lineage →
    ¬ unit.Declared inner receiver.text

/-- What the name of a container means where a call has it as its receiver. -/
theorem CallsDeclared.declarationOf?_eq {call receiver : Cursor} (hunit : unit.Indexable)
    (h : CallsDeclared unit declaration scope name container call receiver property) :
    (ScopeIndex.ofUnit unit).declarationOf? receiver =
      if declaration.kind = .abstractClassDeclaration then
        scope.scopes.findSome? fun outer => (ScopeIndex.ofUnit unit).lookup? outer name.text
      else some name := by
  have hscope := h.names.isScope
  have hapart := hunit.scopes.of_mem_lineage h.receiver_mem h.inside hscope
  have hfree := h.calls.isBinding_eq_false hunit (In.of_mem_cursors h.receiver_mem)
  rw [ScopeIndex.declarationOf?_eq_or hunit.scopes h.receiver_mem hfree h.inside hscope h.between,
    h.text]
  split
  · rename_i hkind
    have hnot : ¬ unit.Declared scope name.text := by
      rintro ⟨c, hc, other, hdeclares, hsame⟩
      obtain rfl := h.only c hc other hdeclares hsame
      apply hunit.not_declares hc (parent?_of_child? h.names.child?_name) _ _ hdeclares
      · rw [hkind]
        rfl
      · rw [hkind]
        rfl
    rw [(ScopeIndex.lookup?_eq_none_iff_of_apart hapart).mpr hnot, Option.none_or]
  · rename_i hkind
    rw [ScopeIndex.lookup?_of_only hapart h.declaration_mem (h.names.declares hkind) h.only,
      Option.some_or]

end Callee

namespace Project

open Callee

/-- A call on a name that is declared, in one scope and in none between, as an object or a class
invokes the first member with the called name, unless the class is abstract.  The name of an
abstract class is looked up further out. -/
theorem callee?_eq_firstMember_iff (root : Option Text) (units : List SourceUnit)
    (unit : SourceUnit) (declaration scope name container call receiver : Cursor) (property : Text)
    (hunit : unit.Indexable)
    (h : CallsDeclared unit declaration scope name container call receiver property) :
    (declaration.kind ≠ .abstractClassDeclaration → ∀ f,
        (ofUnits root units).callee? call = some f ↔ FirstMember container property f) ∧
      (declaration.kind = .abstractClassDeclaration →
        (ofUnits root units).callee? call =
          (scope.scopes.findSome? fun outer =>
            (ScopeIndex.ofUnit unit).lookup? outer name.text).bind
              (memberOf? (ofUnits root units) property)) := by
  have hcallee := h.calls.callee?_eq (ofUnits root units)
  rw [(coherent_ofUnits root units).index_eq, (In.of_mem_cursors h.receiver_mem).unit_eq,
    h.declarationOf?_eq hunit] at hcallee
  refine ⟨fun hkind f => ?_, fun hkind => ?_⟩
  · rw [hcallee, if_neg hkind, Option.bind_some, memberOf?, h.names.container?_name]
    exact memberFunction?_eq_some_iff
  · rw [hcallee, if_pos hkind]

/-- A class at the top of a file, with its only declaration there, and a call of one of its members
at the top too. -/
theorem exists_callsDeclared (unit : SourceUnit) (kind : Kind) (className property : Text)
    (hkind : kind = .classDeclaration ∨ kind = .abstractClassDeclaration)
    (hclass : ∃ declaration ∈ unit.cursors, declaration.kind = kind ∧
      declaration.enclosingScope? = some unit.top ∧
        ∃ name ∈ declaration.child? .name, name.text = className ∧
          (∀ d ∈ (ScopeIndex.ofUnit unit).declarations, d.name = className → d.binding = name) ∧
            ∃ container ∈ declaration.child? .body,
              (memberFunction? container property).isSome = true)
    (hcall : ∃ call ∈ unit.cursors, ∃ access ∈ call.child? .function,
      access.kind = .memberExpression ∧
        (access.child? .property).bind propertyName? = some property ∧
          ∃ receiver ∈ access.child? .object, receiver ∈ unit.cursors ∧
            receiver.kind = .identifier ∧ receiver.text = className ∧ unit.top ∈ receiver.lineage ∧
              unit.AtTop receiver) :
    ∃ declaration scope name container, ∃ call ∈ unit.cursors, ∃ receiver f,
      declaration.kind = kind ∧ FirstMember container property f ∧
        CallsDeclared unit declaration scope name container call receiver property := by
  obtain ⟨declaration, hdeclaration, hdeclarationKind, hscope, name, hname, htext, honly, container,
    hbody, hfound⟩ := hclass
  obtain ⟨f, hf⟩ := Option.isSome_iff_exists.mp hfound
  obtain ⟨call, hmem, access, haccess, haccessKind, hproperty, receiver, hobject, hreceiver,
    hidentifier, hreceiverText, hinside, htop⟩ := hcall
  refine ⟨declaration, unit.top, name, container, call, hmem, receiver, f, hdeclarationKind,
    memberFunction?_eq_some_iff.mp hf, ?_⟩
  exact {
    declaration_mem := hdeclaration
    names := .body (hdeclarationKind ▸ hkind) hscope hname hbody
    only := fun c hc other hdeclares hsame =>
      honly (Declaration.of unit.top other)
        (ScopeIndex.mem_declarations_ofUnit.mpr ⟨c, hc, hdeclares.mem_declarations⟩)
        (hsame.trans htext)
    calls := ⟨hidentifier, access, haccess, haccessKind, hobject, hproperty⟩
    receiver_mem := hreceiver
    text := hreceiverText.trans htext.symm
    inside := hinside
    between := fun inner hinner hscope habove => by
      rw [htop inner hinner hscope] at habove
      simp at habove }

/-- A class `A` with two fields `m`, first a number and then a function, and the call `A.m();`. -/
def classFile (kind : Kind) (start : Nat) (source : String) : SourceUnit :=
  let node (kind : Kind) (start stop : Nat) (field : Option Field) (children : List Node) : Node :=
    .mk ⟨kind, true, false, start, stop, ⟨0, start⟩, field⟩ children
  let field (start stop : Nat) (value : Node) : Node :=
    node .publicFieldDefinition start stop none
      [node .propertyIdentifier start (start + 1) (some .name) [], value]
  { path := "t.ts"
    source := source.toUTF8.data
    root := node .program 0 45 none
      [node kind start 38 none
        [node (.other "type_identifier") 15 16 (some .name) [],
          node .classBody 17 38 (some .body)
            [field 19 24 (node .number 23 24 (some .value) []),
              field 26 36 (node .arrowFunction 30 36 (some .value)
                [node .identifier 30 31 (some .parameter) [],
                  node .identifier 35 36 (some .body) []])]],
        node (.other "expression_statement") 39 45 none
          [node .callExpression 39 44 none
            [node .memberExpression 39 42 (some .function)
              [node .identifier 39 40 (some .object) [],
                node .propertyIdentifier 41 42 (some .property) []],
              node .arguments 42 44 (some .arguments) []]]] }

/-- The file `class A { m = 1; m = f => f } A.m();` behind blanks. -/
def plainClass : SourceUnit :=
  classFile .classDeclaration 9 "         class A { m = 1; m = f => f } A.m();"

/-- The call invokes the second field: the first has no function in it. -/
theorem callee?_eq_firstMember_plainClass :
    plainClass.Indexable ∧ ∃ call ∈ plainClass.cursors, ∃ container f,
      FirstMember container "m" f ∧ (ofUnits none [plainClass]).callee? call = some f := by
  have hunit : plainClass.Indexable := ⟨by decide, by decide, by decide⟩
  obtain ⟨declaration, scope, name, container, call, hcall, receiver, f, hkind, hfirst, h⟩ :=
    exists_callsDeclared plainClass .classDeclaration "A" "m" (Or.inl rfl) (by decide) (by decide)
  refine ⟨hunit, call, hcall, container, f, hfirst, ?_⟩
  have hinvokes := (callee?_eq_firstMember_iff none [plainClass] plainClass declaration scope name
    container call receiver "m" hunit h).1
  exact (hinvokes (by simp [hkind]) f).mpr hfirst

/-- The file `abstract class A { m = 1; m = f => f } A.m();`. -/
def abstractClass : SourceUnit :=
  classFile .abstractClassDeclaration 0 "abstract class A { m = 1; m = f => f } A.m();"

/-- The call invokes nothing, although the abstract class has the member. -/
theorem callee?_eq_none_abstractClass :
    abstractClass.Indexable ∧ ∃ declaration scope name container call receiver f,
      declaration.kind = .abstractClassDeclaration ∧
        CallsDeclared abstractClass declaration scope name container call receiver "m" ∧
          FirstMember container "m" f ∧ (ofUnits none [abstractClass]).callee? call = none := by
  have hnone : ∀ call ∈ abstractClass.cursors,
      (ofUnits none [abstractClass]).callee? call = none := by
    decide +kernel
  obtain ⟨declaration, scope, name, container, call, hcall, receiver, f, hkind, hfirst, h⟩ :=
    exists_callsDeclared abstractClass .abstractClassDeclaration "A" "m" (Or.inr rfl) (by decide)
      (by decide)
  exact ⟨⟨by decide, by decide, by decide⟩, declaration, scope, name, container, call, receiver, f,
    hkind, h, hfirst, hnone call hcall⟩

end Project

end MessageKeys
