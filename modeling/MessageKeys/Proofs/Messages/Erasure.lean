import MessageKeys.Proofs.Messages.Addresses

/-!
# Erasing as selection

What erasing leaves of a document depends on its terminals alone.  Erasing one key takes out the
terminals at its segments or below, and with them the containers that this leaves empty, but no
container that was empty before (`eraseKey_spec`).

A document can also be cut down to some of its terminals in one pass, which keeps an object as long
as it keeps one of its terminals (`restrict`).  Erasing a path is such a selection
(`erasePath_eq_restrict`), and a selection from a selection is a selection
(`restrict_restrict`).  So erasing keys one after the other is one selection
(`eraseKeys_eq_restrict`): each of them prunes the containers that it empties, but what is pruned
before would have been pruned anyway, and the order of the keys does not matter
(`eraseKeys_congr`).
-/

namespace MessageKeys

namespace Document

/-! ## One key -/

/-- Erasing a key takes out the terminals at its segments and below; the others stay, in order and
with their values.  It tells whether there were any, and whether nothing is left then.  So an empty
object in what is left was empty before, an empty object elsewhere stays, and the document is the
same exactly if nothing stood at the key. -/
theorem eraseKey_spec (document : Document) (key : Text) :
    (document.eraseKey key).terminals =
        document.terminals.filter (fun terminal => decide (¬ Key.segments key <+: terminal.1)) ∧
      (document.hasKey key = true ↔
        ∃ terminal ∈ document.terminals, Key.segments key <+: terminal.1) ∧
      (document.emptiedBy key = true ↔
        (∃ terminal ∈ document.terminals, Key.segments key <+: terminal.1) ∧
          document.eraseKey key = []) ∧
      (∀ path, (path, .obj []) ∈ (document.eraseKey key).terminals ↔
        (path, .obj []) ∈ document.terminals ∧ ¬ Key.segments key <+: path) ∧
      (document.eraseKey key = document ↔ document.hasKey key = false) := by
  have hterminals : (document.eraseKey key).terminals =
      document.terminals.filter fun terminal => decide (¬ Key.segments key <+: terminal.1) :=
    terminals_erasePath (segments_ne_nil key) document
  have hhas : document.hasKey key = true ↔
      ∃ terminal ∈ document.terminals, Key.segments key <+: terminal.1 :=
    hasPath_iff (segments_ne_nil key)
  refine ⟨hterminals, hhas, ?_, fun path => ?_, ?_, erasePath_of_not_hasPath⟩
  · rw [emptiedBy, Bool.and_eq_true, hhas, List.isEmpty_iff]
  · rw [hterminals, List.mem_filter, decide_eq_true_iff]
  · intro hsame
    rw [← Bool.not_eq_true, hhas]
    rintro ⟨terminal, hterminal, hstarts⟩
    rw [← hsame, hterminals, List.mem_filter, decide_eq_true_iff] at hterminal
    exact hterminal.2 hstarts

/-! ## Selection -/

mutual

/-- What is left of a value if only the terminals at some paths are kept. -/
def restrictValue (kept : List Text → Bool) : Json → Option Json
  | .obj members =>
      if members.isEmpty then if kept [] then some (.obj members) else none
      else
        let left := restrict kept members
        if left.isEmpty then none else some (.obj left)
  | value => if kept [] then some value else none

/-- What is left of a document if only the terminals at some paths are kept. -/
def restrict (kept : List Text → Bool) : List (Text × Json) → List (Text × Json)
  | [] => []
  | (name, value) :: members =>
      match restrictValue (fun path => kept (name :: path)) value with
      | some left => (name, left) :: restrict kept members
      | none => restrict kept members

end

/-- What is left of a member if only the terminals at some paths are kept. -/
def restrictMember (kept : List Text → Bool) (member : Text × Json) : Option (Text × Json) :=
  (restrictValue (fun path => kept (member.1 :: path)) member.2).map (Prod.mk member.1)

variable {p q : List Text → Bool}

theorem restrict_eq_filterMap (kept : List Text → Bool) (document : Document) :
    restrict kept document = document.filterMap (restrictMember kept) := by
  induction document with
  | nil => rfl
  | cons member rest ih =>
      obtain ⟨name, value⟩ := member
      rw [restrict, List.filterMap_cons, ih, restrictMember]
      cases restrictValue (fun path => kept (name :: path)) value <;> rfl

theorem restrict_congr_members {document : Document}
    (h : ∀ member ∈ document, restrictValue (fun path => p (member.1 :: path)) member.2 =
      restrictValue (fun path => q (member.1 :: path)) member.2) :
    restrict p document = restrict q document := by
  rw [restrict_eq_filterMap, restrict_eq_filterMap]
  apply List.filterMap_congr
  intro member hmember
  rw [restrictMember, restrictMember, h member hmember]

theorem restrictValue_leaf {value : Json} (h : value.members? = none) :
    restrictValue p value = if p [] then some value else none := by
  cases value with
  | obj members => simp [Json.members?] at h
  | null | bool _ | int _ | real _ | str _ | arr _ => simp [restrictValue]

theorem restrictValue_empty :
    restrictValue p (.obj []) = if p [] then some (.obj []) else none := by
  simp [restrictValue]

theorem restrictValue_obj {members : Document} (h : members ≠ []) :
    restrictValue p (.obj members) =
      if restrict p members = [] then none else some (.obj (restrict p members)) := by
  simp [restrictValue, h]

/-- A selection depends on the paths of the terminals only. -/
theorem restrictValue_congr (value : Json)
    (h : ∀ terminal ∈ valueTerminals value, p terminal.1 = q terminal.1) :
    restrictValue p value = restrictValue q value := by
  induction value using Json.induction_members generalizing p q with
  | leaf value hleaf =>
      rw [valueTerminals_leaf hleaf, List.forall_mem_singleton] at h
      rw [restrictValue_leaf hleaf, restrictValue_leaf hleaf, h]
  | obj members ih =>
      by_cases hmembers : members = []
      · subst hmembers
        have hroot := h ([], .obj []) (by simp [valueTerminals])
        rw [restrictValue_empty, restrictValue_empty, hroot]
      · rw [valueTerminals_obj_of_ne_nil hmembers] at h
        have hleft : restrict p members = restrict q members := by
          apply restrict_congr_members
          intro member hmember
          apply ih member hmember
          intro terminal hterminal
          exact h _ (mem_terminals.mpr ⟨member, hmember, List.mem_map_of_mem hterminal⟩)
        rw [restrictValue_obj hmembers, restrictValue_obj hmembers, hleft]

theorem restrict_congr {document : Document}
    (h : ∀ terminal ∈ document.terminals, p terminal.1 = q terminal.1) :
    restrict p document = restrict q document := by
  apply restrict_congr_members
  intro member hmember
  apply restrictValue_congr
  intro terminal hterminal
  exact h _ (mem_terminals.mpr ⟨member, hmember, List.mem_map_of_mem hterminal⟩)

theorem restrict_restrict_of_members {document : Document}
    (h : ∀ member ∈ document, (restrictValue (fun path => p (member.1 :: path)) member.2).bind
      (restrictValue fun path => q (member.1 :: path)) =
        restrictValue (fun path => p (member.1 :: path) && q (member.1 :: path)) member.2) :
    restrict q (restrict p document) = restrict (fun path => p path && q path) document := by
  rw [restrict_eq_filterMap, restrict_eq_filterMap, restrict_eq_filterMap, List.filterMap_filterMap]
  apply List.filterMap_congr
  intro member hmember
  unfold restrictMember
  rw [← h member hmember]
  cases restrictValue (fun path => p (member.1 :: path)) member.2 <;> rfl

/-- A selection from a selection is a selection. -/
theorem restrictValue_bind (value : Json) :
    (restrictValue p value).bind (restrictValue q) =
      restrictValue (fun path => p path && q path) value := by
  induction value using Json.induction_members generalizing p q with
  | leaf value hleaf =>
      rw [restrictValue_leaf hleaf, restrictValue_leaf hleaf]
      cases p [] with
      | false => rfl
      | true => exact restrictValue_leaf hleaf
  | obj members ih =>
      by_cases hmembers : members = []
      · subst hmembers
        rw [restrictValue_empty, restrictValue_empty]
        cases p [] with
        | false => rfl
        | true => exact restrictValue_empty
      · have hleft : restrict q (restrict p members) =
            restrict (fun path => p path && q path) members :=
          restrict_restrict_of_members fun member hmember => ih member hmember
        rw [restrictValue_obj hmembers, restrictValue_obj hmembers, ← hleft]
        by_cases hnone : restrict p members = []
        · -- nothing is left to select from
          rw [hnone]
          rfl
        · rw [if_neg hnone, Option.bind_some, restrictValue_obj hnone]

theorem restrict_restrict (p q : List Text → Bool) (document : Document) :
    restrict q (restrict p document) = restrict (fun path => p path && q path) document :=
  restrict_restrict_of_members fun member _ => restrictValue_bind member.2

/-! ## Erasing is selecting -/

theorem restrict_eq_self {document : Document} (h : ∀ member ∈ document,
    restrictValue (fun path => p (member.1 :: path)) member.2 = some member.2) :
    restrict p document = document := by
  rw [restrict_eq_filterMap]
  refine (List.filterMap_congr fun member hmember => ?_).trans List.filterMap_some
  rw [restrictMember, h member hmember]
  rfl

theorem restrict_eq_nil {document : Document} (h : ∀ member ∈ document,
    restrictValue (fun path => p (member.1 :: path)) member.2 = none) :
    restrict p document = [] := by
  rw [restrict_eq_filterMap, List.filterMap_eq_nil_iff]
  intro member hmember
  rw [restrictMember, h member hmember]
  rfl

theorem restrictValue_true (value : Json) : restrictValue (fun _ => true) value = some value := by
  induction value using Json.induction_members with
  | leaf value hleaf => exact restrictValue_leaf hleaf
  | obj members ih =>
      by_cases hmembers : members = []
      · subst hmembers
        exact restrictValue_empty
      · rw [restrictValue_obj hmembers, restrict_eq_self ih, if_neg hmembers]

theorem restrictValue_false (value : Json) : restrictValue (fun _ => false) value = none := by
  induction value using Json.induction_members with
  | leaf value hleaf => exact restrictValue_leaf hleaf
  | obj members ih =>
      by_cases hmembers : members = []
      · subst hmembers
        exact restrictValue_empty
      · rw [restrictValue_obj hmembers, restrict_eq_nil ih, if_pos rfl]

/-- What erasing a path makes of a member is what is left of it outside the path. -/
theorem eraseMember_eq_restrictMember (segment : Text) (rest : List Text)
    (ih : rest ≠ [] → ∀ document : Document,
      document.erasePath rest = restrict (fun path => decide (¬ rest <+: path)) document)
    (member : Text × Json) :
    eraseMember segment rest member =
      restrictMember (fun path => decide (¬ segment :: rest <+: path)) member := by
  obtain ⟨name, value⟩ := member
  unfold restrictMember
  by_cases hname : name = segment
  · subst hname
    simp only [List.cons_prefix_cons, true_and]
    cases rest with
    | nil => simp [eraseMember, restrictValue_false]
    | cons next rest =>
        cases hvalue : value.members? with
        | none =>
            rw [restrictValue_leaf hvalue, eraseMember_leaf hvalue]
            simp
        | some members =>
            obtain rfl := Json.eq_obj_of_members? hvalue
            rw [eraseMember_obj, ih (by simp)]
            by_cases hmembers : members = []
            · subst hmembers
              simp [restrictValue_empty, restrict]
            · rw [restrictValue_obj hmembers]
              by_cases hleft : restrict (fun path => decide (¬ next :: rest <+: path)) members = []
              · rw [if_pos ⟨hmembers, hleft⟩, if_pos hleft]
                rfl
              · rw [if_neg fun hboth => hleft hboth.2, if_neg hleft]
                rfl
  · simp [eraseMember, List.cons_prefix_cons, hname, Ne.symm hname, restrictValue_true]

/-- Erasing a path selects the terminals outside it. -/
theorem erasePath_eq_restrict {path : List Text} (hpath : path ≠ []) (document : Document) :
    document.erasePath path = restrict (fun found => decide (¬ path <+: found)) document := by
  induction path generalizing document with
  | nil => exact absurd rfl hpath
  | cons segment rest ih =>
      rw [erasePath_cons, restrict_eq_filterMap]
      apply List.filterMap_congr
      intro member _
      exact eraseMember_eq_restrictMember segment rest (fun hrest => ih hrest) member

/-- Erasing keys one after the other selects the terminals outside all of them at once. -/
theorem eraseKeys_eq_restrict (document : Document) (keys : List Text) :
    (document.eraseKeys keys).1 = restrict (spared keys) document := by
  rw [eraseKeys_fst]
  induction keys generalizing document with
  | nil => exact (restrict_eq_self fun member _ => restrictValue_true member.2).symm
  | cons key rest ih =>
      calc (key :: rest).foldl eraseKey document
          = restrict (spared rest) (document.eraseKey key) := ih (document.eraseKey key)
        _ = restrict (spared rest)
              (restrict (fun found => decide (¬ Key.segments key <+: found)) document) := by
            rw [eraseKey, erasePath_eq_restrict (segments_ne_nil key)]
        _ = restrict (spared (key :: rest)) document := restrict_restrict _ _ document

/-- What is left of a document tells which of its terminals were spared. -/
theorem eraseKeys_eq_iff {document : Document} {first second : List Text} :
    (document.eraseKeys first).1 = (document.eraseKeys second).1 ↔
      ∀ terminal ∈ document.terminals, spared first terminal.1 = spared second terminal.1 := by
  constructor
  · intro hsame terminal hterminal
    have hleft : ∀ keys, terminal ∈ (document.eraseKeys keys).1.terminals ↔
        spared keys terminal.1 = true := by
      intro keys
      rw [terminals_eraseKeys, List.mem_filter]
      exact and_iff_right hterminal
    rw [Bool.eq_iff_iff, ← hleft, ← hleft, hsame]
  · intro hspared
    rw [eraseKeys_eq_restrict, eraseKeys_eq_restrict]
    exact restrict_congr hspared

/-- Keys leave the same of a document in whatever order they are erased and however often each of
them is, also if one of them stands for a container of another.  Two lists of keys leave the same
exactly if they stand for the same of its terminals. -/
theorem eraseKeys_congr (document : Document) (first second : List Text) :
    ((∀ key, key ∈ first ↔ key ∈ second) →
      (document.eraseKeys first).1 = (document.eraseKeys second).1) ∧
    ((document.eraseKeys first).1 = (document.eraseKeys second).1 ↔
      ∀ terminal ∈ document.terminals,
        (∃ key ∈ first, Key.segments key <+: terminal.1) ↔
          ∃ key ∈ second, Key.segments key <+: terminal.1) := by
  have hnot : ∀ keys path : List Text, spared keys path = true ↔
      ¬ ∃ key ∈ keys, Key.segments key <+: path := by
    intro keys path
    rw [spared_iff]
    simp
  have hspared : ∀ path, spared first path = spared second path ↔
      ((∃ key ∈ first, Key.segments key <+: path) ↔ ∃ key ∈ second, Key.segments key <+: path) := by
    intro path
    rw [Bool.eq_iff_iff, hnot, hnot, not_iff_not]
  constructor
  · intro hkeys
    apply eraseKeys_eq_iff.mpr
    intro terminal _
    apply (hspared terminal.1).mpr
    simp only [hkeys]
  · rw [eraseKeys_eq_iff]
    exact forall₂_congr fun terminal _ => hspared terminal.1

/-- Erasing `a.b` takes out the leaf `a.b.c` with its container, and `a.b.c` takes out the container
with its leaf. -/
theorem eraseKeys_congr_overlapping :
    let document : Document :=
      [("a", .obj [("b", .obj [("c", .int 1)]), ("d", .obj [])]), ("e", .obj [("f", .int 2)])]
    let first : List Text := ["a.b", "e.f", "a.b.c"]
    let second : List Text := ["a.b.c", "a.b.c", "a.b", "e.f"]
    (∀ key, key ∈ first ↔ key ∈ second) ∧
      (document.eraseKeys first).1 = (document.eraseKeys second).1 ∧
      (document.eraseKeys second).1.terminals.map Prod.fst =
        [[Text.ofString "a", Text.ofString "d"]] := by
  intro document first second
  have hkeys : ∀ key, key ∈ first ↔ key ∈ second := by
    intro key
    simp only [first, second, List.mem_cons, List.not_mem_nil, or_false]
    tauto
  exact ⟨hkeys, (eraseKeys_congr document first second).1 hkeys, by decide⟩

end Document

end MessageKeys
