import MessageKeys.Proofs.Usage.Uniqueness

/-!
# Uses and positions

What a reference is used for is said here by its position alone, without going up from the node step
by step (`ReferenceUse.Position`):

```text
f(.., r, ..)              an argument of a call, at an index
f(.., { r }, ..)          carried by an object literal that is an argument
f(.., { name: r }, ..)    the same, under the static key of a pair
r(..)  and  r.m(..)       what is called, or the receiver of the method that is called
```

A use is the one that is found exactly if the reference has this position, and any other reference
is ignored (`ReferenceUse.classify_eq_iff_position`).  Indices count arguments and parameters, so a
translator that is handed on lands in the parameter with its index (`Resolver.of_mem_forward_use`).

The index of an argument is found by comparing identities.  It leads back to the argument because
identities tell named nodes apart, so the list of arguments holds the argument's identity once
(`SourceUnit.NamedApart.nodup_namedChildren`).
-/

namespace MessageKeys

open Syntax Cursor

/-! ## Entries of a list -/

/-- The entries that pass a test are numbered by counting those that stand before. -/
theorem getElem?_filter_eq_some_iff {α : Type} {p : α → Bool} {items : List α} {index : Nat}
    {item : α} :
    (items.filter p)[index]? = some item ↔ ∃ before after, items = before ++ item :: after ∧
      p item = true ∧ before.countP p = index := by
  induction items generalizing index with
  | nil => simp
  | cons first rest ih =>
      constructor
      · intro h
        by_cases hfirst : p first = true
        · rw [List.filter_cons_of_pos hfirst] at h
          cases index with
          | zero =>
              obtain rfl : first = item := by simpa using h
              exact ⟨[], rest, rfl, hfirst, rfl⟩
          | succ index =>
              obtain ⟨before, after, rfl, hitem, hcount⟩ := ih.mp (by simpa using h)
              refine ⟨first :: before, after, rfl, hitem, ?_⟩
              rw [List.countP_cons_of_pos hfirst, hcount]
        · rw [List.filter_cons_of_neg hfirst] at h
          obtain ⟨before, after, rfl, hitem, hcount⟩ := ih.mp h
          refine ⟨first :: before, after, rfl, hitem, ?_⟩
          rw [List.countP_cons_of_neg hfirst, hcount]
      · rintro ⟨before, after, heq, hitem, rfl⟩
        cases before with
        | nil =>
            obtain ⟨rfl, rfl⟩ := List.cons.inj heq
            simp [hitem]
        | cons other before =>
            obtain ⟨rfl, rfl⟩ := List.cons.inj heq
            have hrest := ih.mpr ⟨before, after, rfl, hitem, rfl⟩
            by_cases hfirst : p first = true
            · rw [List.filter_cons_of_pos hfirst, List.countP_cons_of_pos hfirst]
              simpa using hrest
            · rw [List.filter_cons_of_neg hfirst, List.countP_cons_of_neg hfirst]
              exact hrest

namespace Syntax

/-! ## Named nodes below a node -/

namespace Cursor

theorem children_sublist_places (c : Cursor) : c.children.Sublist c.places := by
  rw [places_eq_flatMap]
  refine List.Sublist.trans ?_ (List.sublist_cons_self _ _)
  calc c.children.Sublist (c.children.flatMap fun child => [child]) := by
        rw [List.flatMap_singleton']
    List.Sublist _ (c.children.flatMap places) := by
        refine List.Sublist.flatMap_right _ fun child _ => ?_
        exact List.singleton_sublist.mpr child.mem_places_self

end Cursor

theorem SourceUnit.NamedApart.nodup_namedChildren {unit : SourceUnit} (hapart : unit.NamedApart)
    {c : Cursor} (hc : In unit c) : (c.namedChildren.map Cursor.key).Nodup := by
  have hsublist : c.namedChildren.Sublist (unit.places.filter fun d => d.label.named) :=
    (c.children_sublist_places.trans hc.places_sublist).filter _
  exact List.Nodup.sublist (hsublist.map _) hapart

namespace Cursor

variable {c parent call function argument parameter : Cursor} {field : Field} {index : Nat}

/-- The node is the one with a role in another.  If the node found for the role is not named, it has
at least the identity of this one. -/
def InRole (parent : Cursor) (field : Field) (c : Cursor) : Prop :=
  ∃ found, parent.child? field = some found ∧ found.key = c.key ∧
    (found.label.named = true → found = c)

theorem sameNode_iff_key_eq {d : Cursor} (hunit : c.unit = d.unit) :
    c.sameNode d = true ↔ c.key = d.key := by
  simp only [sameNode, key, hunit, Bool.and_eq_true, decide_eq_true_eq, NodeKey.mk.injEq, and_true,
    and_assoc]

theorem hasChild_iff_inRole {unit : SourceUnit} (hapart : unit.NamedApart)
    (hparent : In unit parent) (hc : In unit c) (hnamed : c.label.named = true) :
    parent.hasChild field c = true ↔ InRole parent field c := by
  unfold hasChild InRole
  cases hfound : parent.child? field with
  | none => simp
  | some found =>
      have hin : In unit found := hparent.child? hfound
      have hsame := sameNode_iff_key_eq (hin.unit_eq.trans hc.unit_eq.symm)
      dsimp only
      rw [hsame]
      constructor
      · intro hkey
        refine ⟨found, rfl, hkey, fun hfoundNamed => ?_⟩
        exact hapart.eq_of_key_eq hin hc hfoundNamed hnamed hkey
      · rintro ⟨other, heq, hkey, _⟩
        rw [Option.some.inj heq]
        exact hkey

/-! ## Arguments and parameters by their numbers -/

/-- The argument of a call with an index: so many other named nodes stand before it in the list of
arguments, comments not counted. -/
def ArgumentAt (call : Cursor) (index : Nat) (argument : Cursor) : Prop :=
  ∃ list before after, call.child? .arguments = some list ∧ list.kind = .arguments ∧
    list.namedChildren = before ++ argument :: after ∧ argument.kind ≠ .comment ∧
    before.countP (fun other => decide (other.kind ≠ .comment)) = index

/-- Whether a node in a list of parameters receives an argument: a comment does not, and neither
does a parameter that only declares the type of `this`. -/
def receives (parameter : Cursor) : Bool :=
  decide (parameter.kind ≠ .comment) && !parameter.isThisParameter

/-- The parameter of a function with an index: the only one of an arrow without parentheses, or the
one in the list of parameters before which so many others receive an argument. -/
def ParameterAt (function : Cursor) (index : Nat) (parameter : Cursor) : Prop :=
  (function.child? .parameter = some parameter ∧ index = 0) ∨
    function.child? .parameter = none ∧ ∃ list before after,
      function.child? .parameters = some list ∧ list.namedChildren = before ++ parameter :: after ∧
        parameter.receives = true ∧ before.countP receives = index

theorem getElem?_argumentNodes :
    call.argumentNodes[index]? = some argument ↔ ArgumentAt call index argument := by
  unfold argumentNodes ArgumentAt
  cases call.child? .arguments with
  | none => simp
  | some list =>
      by_cases hkind : list.kind = .arguments
      · dsimp only
        rw [if_pos hkind, getElem?_filter_eq_some_iff]
        simp [hkind]
      · simp [hkind]

theorem getElem?_functionParameters :
    function.functionParameters[index]? = some parameter ↔
      ParameterAt function index parameter := by
  unfold functionParameters ParameterAt
  cases function.child? .parameter with
  | some single => cases index <;> simp
  | none =>
      cases function.child? .parameters with
      | none => simp
      | some list =>
          refine (getElem?_filter_eq_some_iff (p := receives)).trans ?_
          simp

end Cursor

end Syntax

namespace ReferenceUse

variable {unit : SourceUnit} {r call literal : Cursor} {index : Nat} {name : Text}
  {use : ReferenceUse}

/-! ## Positions -/

/-- An object literal carries a node under a name: as a member that is written by its name alone,
or as the value of a pair with this static key. -/
inductive Carries (literal : Cursor) (name : Text) (r : Cursor) : Prop
  | shorthand (hparent : r.parent? = some literal) (hkind : r.kind = .shorthandPropertyIdentifier)
      (hname : r.text = name)
  | pair {pair key : Cursor} (hparent : r.parent? = some pair) (hpair : pair.kind = .pair)
      (hvalue : InRole pair .value r) (hkey : pair.child? .key = some key)
      (hname : key.propertyName? = some name) (hliteral : pair.parent? = some literal)

/-- The positions that are followed, each with the use that it stands for. -/
inductive Position (r : Cursor) : ReferenceUse → Prop
  | callee {call : Cursor} (hcall : call.kind = .callExpression) (hparent : r.parent? = some call)
      (hfunction : InRole call .function r) : Position r (.direct call)
  | receiver {call access : Cursor} (hcall : call.kind = .callExpression)
      (haccess : access.kind = .memberExpression) (hparent : r.parent? = some access)
      (hobject : InRole access .object r) (houter : access.parent? = some call)
      (hfunction : InRole call .function access) : Position r (.direct call)
  | argument {call : Cursor} {index : Nat} (hcall : call.kind = .callExpression)
      (hargument : call.argumentNodes[index]? = some r) : Position r (.positional call index)
  | carried {call literal : Cursor} {index : Nat} {name : Text}
      (hcall : call.kind = .callExpression)
      (hargument : call.argumentNodes[index]? = some literal) (hkind : literal.kind = .object)
      (hcarries : Carries literal name r) : Position r (.property call index name)

/-! ## The index of an argument -/

theorem of_mem_argumentNodes {argument : Cursor} (h : argument ∈ call.argumentNodes) :
    ∃ list, call.child? .arguments = some list ∧ list.kind = .arguments ∧
      argument ∈ list.namedChildren := by
  obtain ⟨index, hindex⟩ := List.getElem?_of_mem h
  obtain ⟨list, before, after, hlist, hkind, heq, -⟩ := getElem?_argumentNodes.mp hindex
  exact ⟨list, hlist, hkind, by simp [heq]⟩

theorem nodup_argumentNodes (hapart : unit.NamedApart) (hcall : In unit call) :
    (call.argumentNodes.map Cursor.key).Nodup := by
  unfold argumentNodes
  split
  · rename_i list hlist
    split
    · exact (hapart.nodup_namedChildren (hcall.child? hlist)).sublist
        (List.filter_sublist.map _)
    · exact List.nodup_nil
  · exact List.nodup_nil

/-- The search for an argument among those of a call finds it where it stands. -/
theorem findIdx?_argumentNodes (hapart : unit.NamedApart) (hcall : In unit call) {argument : Cursor}
    (hargument : In unit argument) (hnamed : argument.label.named = true) :
    (call.argumentNodes.findIdx? fun candidate => candidate.sameNode argument) = some index ↔
      call.argumentNodes[index]? = some argument := by
  have hsame : ∀ candidate ∈ call.argumentNodes,
      candidate.sameNode argument = true ↔ candidate = argument := by
    intro candidate hcandidate
    obtain ⟨list, hlist, _, hmem⟩ := of_mem_argumentNodes hcandidate
    have hin : In unit candidate := (hcall.child? hlist).of_mem_namedChildren hmem
    rw [sameNode_iff_key_eq (hin.unit_eq.trans hargument.unit_eq.symm)]
    refine ⟨fun hkey => ?_, fun heq => heq ▸ rfl⟩
    exact hapart.eq_of_key_eq hin hargument (mem_namedChildren.mp hmem).2 hnamed hkey
  have hnodup : call.argumentNodes.Nodup := (nodup_argumentNodes hapart hcall).of_map
  rw [List.findIdx?_eq_some_iff_getElem]
  constructor
  · rintro ⟨hlt, hfound, -⟩
    rw [List.getElem?_eq_getElem hlt, (hsame _ (List.getElem_mem hlt)).mp hfound]
  · intro h
    obtain ⟨hlt, heq⟩ := List.getElem?_eq_some_iff.mp h
    refine ⟨hlt, (hsame _ (List.getElem_mem hlt)).mpr heq, fun j hj hfound => ?_⟩
    -- an earlier entry of the same identity would be a second copy
    have hearlier := (hsame _ (List.getElem_mem (Nat.lt_trans hj hlt))).mp hfound
    have := (List.Nodup.getElem_inj_iff hnodup).mp (hearlier.trans heq.symm)
    omega

/-- A node is an argument of a call exactly where the call lists it. -/
theorem argumentOf?_eq_some_iff (hapart : unit.NamedApart) {argument : Cursor}
    (hargument : In unit argument) (hnamed : argument.label.named = true) :
    argumentOf? argument = some (call, index) ↔
      call.kind = .callExpression ∧ call.argumentNodes[index]? = some argument := by
  constructor
  · intro h
    obtain ⟨hmem, hcall⟩ := of_argumentOf? h
    have hin := hargument.of_mem_lineage hmem
    unfold argumentOf? at h
    split at h
    · split at h
      · split at h
        · split at h
          · obtain ⟨found, hfound, heq⟩ := Option.map_eq_some_iff.mp h
            obtain ⟨rfl, rfl⟩ := Prod.mk.inj heq
            exact ⟨hcall, (findIdx?_argumentNodes hapart hin hargument hnamed).mp hfound⟩
          · simp at h
        · simp at h
      · simp at h
    · simp at h
  · rintro ⟨hcall, hentry⟩
    obtain ⟨list, hlist, hkind, hmem⟩ := of_mem_argumentNodes (List.mem_of_getElem? hentry)
    have hparent := parent?_of_mem_children (mem_namedChildren.mp hmem).1
    have houter := parent?_of_child? hlist
    have hin : In unit call :=
      (hargument.of_mem_lineage (mem_lineage_of_parent? hparent)).of_mem_lineage
        (mem_lineage_of_parent? houter)
    have hfound := (findIdx?_argumentNodes hapart hin hargument hnamed).mpr hentry
    simp [argumentOf?, hparent, hkind, houter, hcall, hfound]

theorem carriedBy_eq_iff (hapart : unit.NamedApart) (hliteral : In unit literal)
    (hnamed : literal.label.named = true) (huse : use ≠ .ignored) :
    carriedBy literal name = use ↔ ∃ call index, call.kind = .callExpression ∧
      call.argumentNodes[index]? = some literal ∧ use = .property call index name := by
  have hargument : ∀ call index, argumentOf? literal = some (call, index) ↔
      call.kind = .callExpression ∧ call.argumentNodes[index]? = some literal := fun _ _ =>
    argumentOf?_eq_some_iff hapart hliteral hnamed
  unfold carriedBy
  constructor
  · intro h
    split at h
    · rename_i call index hfound
      obtain ⟨hcall, hentry⟩ := (hargument call index).mp hfound
      exact ⟨call, index, hcall, hentry, h.symm⟩
    · exact absurd h.symm huse
  · rintro ⟨call, index, hcall, hentry, rfl⟩
    rw [(hargument call index).mpr ⟨hcall, hentry⟩]

/-! ## Uses by position -/

/-- A node around a node of the walk is named if there is a further one around it. -/
theorem named_of_parent? {c parent : Cursor} (hc : c ∈ unit.cursors) (h : c.parent? = some parent) :
    c.label.named = true :=
  named_of_mem_cursors hc (mem_lineage_of_parent? h)

theorem parent_mem_cursors {c parent : Cursor} (hc : c ∈ unit.cursors)
    (h : c.parent? = some parent) : parent ∈ unit.cursors :=
  mem_cursors_of_mem_lineage hc (mem_lineage_of_parent? h)

theorem position_of_carriedBy (hapart : unit.NamedApart) (hliteral : literal ∈ unit.cursors)
    (hkind : literal.kind = .object) (hcarries : Carries literal name r)
    (h : carriedBy literal name = use) (huse : use ≠ .ignored) : Position r use := by
  have hnamed : literal.label.named = true := by
    cases hparent : literal.parent? with
    | some list => exact named_of_parent? hliteral hparent
    | none =>
        -- the top of a file is no argument
        have hignored : carriedBy literal name = .ignored := by
          simp [carriedBy, argumentOf?, hparent]
        exact absurd (h.symm.trans hignored) huse
  obtain ⟨call, index, hcall, hentry, rfl⟩ :=
    (carriedBy_eq_iff hapart (.of_mem_cursors hliteral) hnamed huse).mp h
  exact .carried hcall hentry hkind hcarries

theorem position_of_classify (hapart : unit.NamedApart) (hr : r ∈ unit.cursors)
    (h : classify r = use) (huse : use ≠ .ignored) : Position r use := by
  have hin : In unit r := .of_mem_cursors hr
  unfold classify at h
  split at h
  · exact absurd h.symm huse
  · rename_i parent hparent
    have hnamed := named_of_parent? hr hparent
    have hparentMem := parent_mem_cursors hr hparent
    have hparentIn : In unit parent := .of_mem_cursors hparentMem
    split at h
    case h_1 hkind =>
      split at h
      · rename_i hfunction
        rw [← h]
        exact .callee hkind hparent ((hasChild_iff_inRole hapart hparentIn hin hnamed).mp hfunction)
      · exact absurd h.symm huse
    case h_2 hkind =>
      split at h
      · rename_i hobject
        split at h
        · rename_i call houter
          split at h
          · rename_i hcall
            simp only [Bool.and_eq_true, decide_eq_true_eq] at hcall
            have hcallIn : In unit call := .of_mem_cursors (parent_mem_cursors hparentMem houter)
            rw [← h]
            exact .receiver hcall.1 hkind hparent
              ((hasChild_iff_inRole hapart hparentIn hin hnamed).mp hobject) houter
              ((hasChild_iff_inRole hapart hcallIn hparentIn
                (named_of_parent? hparentMem houter)).mp hcall.2)
          · exact absurd h.symm huse
        · exact absurd h.symm huse
      · exact absurd h.symm huse
    case h_3 =>
      split at h
      · rename_i call index hargument
        obtain ⟨hcall, hentry⟩ := (argumentOf?_eq_some_iff hapart hin hnamed).mp hargument
        rw [← h]
        exact .argument hcall hentry
      · exact absurd h.symm huse
    case h_4 hkind =>
      split at h
      · rename_i hshorthand
        exact position_of_carriedBy hapart hparentMem hkind
          (.shorthand hparent hshorthand rfl) h huse
      · exact absurd h.symm huse
    case h_5 hkind =>
      split at h
      · rename_i hvalue
        split at h
        · rename_i name literal hname hliteral
          split at h
          · rename_i hobject
            obtain ⟨key, hkey, hname⟩ := Option.bind_eq_some_iff.mp hname
            have hrole := (hasChild_iff_inRole hapart hparentIn hin hnamed).mp hvalue
            exact position_of_carriedBy hapart (parent_mem_cursors hparentMem hliteral) hobject
              (.pair hparent hkind hrole hkey hname hliteral) h huse
          · exact absurd h.symm huse
        · exact absurd h.symm huse
      · exact absurd h.symm huse
    case h_6 => exact absurd h.symm huse

theorem classify_of_position (hapart : unit.NamedApart) (hr : r ∈ unit.cursors)
    (h : Position r use) : classify r = use := by
  have hin : In unit r := .of_mem_cursors hr
  cases h with
  | @callee call hcall hparent hfunction =>
      have hmem := parent_mem_cursors hr hparent
      have hrole := (hasChild_iff_inRole hapart (.of_mem_cursors hmem) hin
        (named_of_parent? hr hparent)).mpr hfunction
      simp [classify, hparent, hcall, hrole]
  | @receiver call access hcall haccess hparent hobject houter hfunction =>
      have hmem := parent_mem_cursors hr hparent
      have hrole := (hasChild_iff_inRole hapart (.of_mem_cursors hmem) hin
        (named_of_parent? hr hparent)).mpr hobject
      have houterMem := parent_mem_cursors hmem houter
      have houterRole := (hasChild_iff_inRole hapart (.of_mem_cursors houterMem)
        (.of_mem_cursors hmem) (named_of_parent? hmem houter)).mpr hfunction
      simp [classify, hparent, haccess, hrole, houter, hcall, houterRole]
  | @argument call index hcall hargument =>
      obtain ⟨list, hlist, hkind, hmem⟩ := of_mem_argumentNodes (List.mem_of_getElem? hargument)
      have hparent := parent?_of_mem_children (mem_namedChildren.mp hmem).1
      have hfound := (argumentOf?_eq_some_iff hapart hin (named_of_parent? hr hparent)).mpr
        ⟨hcall, hargument⟩
      simp [classify, hparent, hkind, hfound]
  | @carried call literal index name hcall hargument hkind hcarries =>
      obtain ⟨list, hlist, _, hmem⟩ := of_mem_argumentNodes (List.mem_of_getElem? hargument)
      have hnamed := (mem_namedChildren.mp hmem).2
      have hcarried : In unit literal → carriedBy literal name = .property call index name :=
        fun hliteral => (carriedBy_eq_iff hapart hliteral hnamed (by simp)).mpr
          ⟨call, index, hcall, hargument, rfl⟩
      cases hcarries with
      | shorthand hparent hshorthand hname =>
          have huse := hcarried (.of_mem_cursors (parent_mem_cursors hr hparent))
          simp [classify, hparent, hkind, hshorthand, hname, huse]
      | @pair pair key hparent hpair hvalue hkey hname hliteral =>
          have hpairMem := parent_mem_cursors hr hparent
          have huse := hcarried (.of_mem_cursors (parent_mem_cursors hpairMem hliteral))
          have hrole := (hasChild_iff_inRole hapart (.of_mem_cursors hpairMem) hin
            (named_of_parent? hr hparent)).mpr hvalue
          simp [classify, hparent, hpair, hrole, hkey, hname, hliteral, hkind, huse]

/-- The call and the index that a use hands the reference to. -/
def handed? : ReferenceUse → Option (Cursor × Nat)
  | positional call index | property call index _ => some (call, index)
  | direct _ | ignored => none

end ReferenceUse

/-- What is handed on lands inside the parameter with the index of the argument. -/
theorem Resolver.of_mem_forward_use {r : Resolver} {space : Option Text} {use : ReferenceUse}
    {t : Translator} (h : t ∈ r.forward space use) :
    ∃ call index function parameter, use.handed? = some (call, index) ∧
      r.project.callee? call = some function ∧
      function.functionParameters[index]? = some parameter ∧ Beneath parameter t.site ∧
      t.space = space := by
  have hpattern : ∀ (call : Cursor) (index : Nat) (pattern : Cursor),
      ((r.project.callee? call).bind fun function =>
        function.functionParameters[index]?.bind parameterPattern?) = some pattern →
      ∃ function parameter, r.project.callee? call = some function ∧
        function.functionParameters[index]? = some parameter ∧ Beneath parameter pattern := by
    intro call index pattern hpattern
    obtain ⟨function, hfunction, hpattern⟩ := Option.bind_eq_some_iff.mp hpattern
    obtain ⟨parameter, hparameter, hpattern⟩ := Option.bind_eq_some_iff.mp hpattern
    exact ⟨function, parameter, hfunction, hparameter, (of_parameterPattern? hpattern).1⟩
  cases use with
  | direct _ => simp [forward] at h
  | ignored => simp [forward] at h
  | positional call index =>
      simp only [forward] at h
      split at h
      · rename_i pattern hfound
        obtain ⟨function, parameter, hfunction, hparameter, hbeneath⟩ :=
          hpattern call index pattern hfound
        split at h
        · rw [List.mem_singleton.mp h]
          exact ⟨call, index, function, parameter, rfl, hfunction, hparameter, hbeneath, rfl⟩
        · simp at h
      · simp at h
  | property call index name =>
      simp only [forward] at h
      split at h
      · rename_i pattern hfound
        obtain ⟨function, parameter, hfunction, hparameter, hbeneath⟩ :=
          hpattern call index pattern hfound
        split at h
        · obtain ⟨element, helement, rfl⟩ := List.mem_map.mp h
          exact ⟨call, index, function, parameter, rfl, hfunction, hparameter,
            hbeneath.trans (beneath_of_mem_destructured helement), rfl⟩
        · simp at h
      · simp at h

namespace ReferenceUse

/-- The use of a reference is that of its position, and a reference without one is ignored.  What is
handed on lands inside the parameter of the called function that has the index of the argument,
where neither comments nor a parameter for `this` are counted. -/
theorem classify_eq_iff_position {unit : SourceUnit} (hapart : unit.NamedApart) {r : Cursor}
    (hr : r ∈ unit.cursors) :
    (∀ use, classify r = use ↔
        Position r use ∨ use = .ignored ∧ ∀ other, ¬Position r other) ∧
      (∀ call index argument,
        call.argumentNodes[index]? = some argument ↔ ArgumentAt call index argument) ∧
      ∀ (resolver : Resolver) (space : Option Text), ∀ t ∈ resolver.forward space (classify r),
        ∃ call index function parameter, (classify r).handed? = some (call, index) ∧
          resolver.project.callee? call = some function ∧
          function.functionParameters[index]? = some parameter ∧
          ParameterAt function index parameter ∧ Beneath parameter t.site ∧ t.space = space := by
  refine ⟨fun use => ⟨fun h => ?_, ?_⟩, fun _ _ _ => getElem?_argumentNodes, ?_⟩
  · by_cases huse : use = .ignored
    · refine Or.inr ⟨huse, fun other hother => ?_⟩
      have hsame : other = .ignored := by
        rw [← classify_of_position hapart hr hother, h, huse]
      rw [hsame] at hother
      cases hother
    · exact Or.inl (position_of_classify hapart hr h huse)
  · rintro (hposition | ⟨rfl, hnone⟩)
    · exact classify_of_position hapart hr hposition
    · by_contra huse
      exact hnone _ (position_of_classify hapart hr rfl huse)
  · intro resolver space t ht
    obtain ⟨call, index, function, parameter, hhanded, hfunction, hparameter, hbeneath, hspace⟩ :=
      Resolver.of_mem_forward_use ht
    exact ⟨call, index, function, parameter, hhanded, hfunction, hparameter,
      getElem?_functionParameters.mp hparameter, hbeneath, hspace⟩

/-- The file `function show(this: A, t) {}` with the call `show(/**/ t);` in a second line. -/
def commented : SourceUnit :=
  let node (kind : Kind) (start stop : Nat) (field : Option Field) (children : List Node) : Node :=
    .mk ⟨kind, true, false, start, stop,
      if start < 29 then ⟨0, start⟩ else ⟨1, start - 29⟩, field⟩ children
  { path := "commented.ts"
    source := "function show(this: A, t) \x7b\x7d\nshow(/**/ t);".toUTF8.data
    root := node .program 0 42 none
      [node .functionDeclaration 0 28 none
        [node .identifier 9 13 (some .name) [],
          node (.other "formal_parameters") 13 25 (some .parameters)
            [node .requiredParameter 14 21 none [node .thisExpression 14 18 (some .pattern) []],
              node .requiredParameter 23 24 none [node .identifier 23 24 (some .pattern) []]],
          node .statementBlock 26 28 (some .body) []],
        node (.other "expression_statement") 29 42 none
          [node .callExpression 29 41 none
            [node .identifier 29 33 (some .function) [],
              node .arguments 33 41 (some .arguments)
                [node .comment 34 38 none [], node .identifier 39 40 none []]]]] }

/-- The project with this one file. -/
def handing : Resolver :=
  ⟨Project.ofUnits none [commented], {}⟩

/-- The argument after the comment is the first one, and it lands in the parameter after `this`. -/
theorem classify_eq_iff_position_commented :
    commented.NamedApart ∧ ∃ r ∈ commented.cursors, ∃ call, Position r (.positional call 0) ∧
      ∃ t ∈ handing.forward none (classify r), t.site.label.start = 23 ∧
        ∃ function parameter, handing.project.callee? call = some function ∧
          ParameterAt function 0 parameter ∧ Beneath parameter t.site := by
  have hapart : commented.NamedApart := by decide
  obtain ⟨r, hr, call, -, hclassify, t, ht, hsite⟩ :
      ∃ r ∈ commented.cursors, ∃ call ∈ commented.cursors, classify r = .positional call 0 ∧
        ∃ t ∈ handing.forward none (classify r), t.site.label.start = 23 := by
    decide +kernel
  obtain ⟨hposition, -, hlands⟩ := classify_eq_iff_position hapart hr
  obtain ⟨outer, index, function, parameter, hhanded, hcallee, -, hparameter, hbeneath, -⟩ :=
    hlands handing none t ht
  rw [hclassify] at hhanded
  obtain ⟨rfl, rfl⟩ := Prod.mk.inj (Option.some.inj hhanded)
  refine ⟨hapart, r, hr, call, ?_, t, ht, hsite, function, parameter, hcallee, hparameter, hbeneath⟩
  exact ((hposition _).mp hclassify).resolve_right (by simp)

end ReferenceUse

end MessageKeys
