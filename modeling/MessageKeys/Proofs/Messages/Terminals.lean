import Mathlib.Data.List.Basic
import MessageKeys.Messages.Document
import MessageKeys.Messages.Reconciliation

/-!
# The terminals of a document

Where the branches of a document end there is a leaf or an empty object; these are its
terminals, each with the list of the names on the way to it.  Lists of names say more than
keys do: a name may contain the separator or be empty, so that different lists are written
as one key.

* The keys of a document are the written paths of its leaves (`Document.mem_keys`).
* Erasing a path filters the terminals: those at the path or below it go, and no other does
  (`Document.terminals_erasePath`).
* So erasing keys takes out the leaves at or below the segments of one of the keys
  (`Document.mem_keys_eraseKeys`).

A key is erased by its segments, which need not be the names on the way to its leaf, and
what stands there may be a container with other leaves in it.
`Document.lost_by_pruning_iff` says which keys are lost that way when the unused ones are
erased.
-/

namespace MessageKeys

theorem Json.eq_obj_of_members? {value : Json} {members : List (Text × Json)}
    (h : value.members? = some members) : value = .obj members := by
  cases value with
  | obj found => rw [Option.some.inj h]
  | null | bool _ | int _ | real _ | str _ | arr _ => simp [Json.members?] at h

/-- A fact about every value follows for an object from what it is about the values of the
members. -/
@[elab_as_elim]
theorem Json.induction_members {motive : Json → Prop}
    (leaf : ∀ value : Json, value.members? = none → motive value)
    (obj : ∀ members : List (Text × Json), (∀ member ∈ members, motive member.2) →
      motive (.obj members)) : ∀ value : Json, motive value
  | .obj members => obj members fun member _ => induction_members leaf obj member.2
  | .null => leaf .null rfl
  | .bool b => leaf (.bool b) rfl
  | .int n => leaf (.int n) rfl
  | .real x => leaf (.real x) rfl
  | .str s => leaf (.str s) rfl
  | .arr items => leaf (.arr items) rfl
termination_by value => value
decreasing_by
  rename_i hmember
  have hsize := List.sizeOf_lt_of_mem hmember
  obtain ⟨name, value⟩ := member
  simp only [Json.obj.sizeOf_spec, Prod.mk.sizeOf_spec] at hsize ⊢
  omega

/-- The key that a list of names is written as. -/
def Key.ofPath (path : List Text) : Text :=
  path.foldl Key.child []

namespace Document

mutual

/-- The ends of the branches of a value, with the names on the way to them. -/
def valueTerminals : Json → List (List Text × Json)
  | .obj members => if members.isEmpty then [([], .obj members)] else memberTerminals members
  | value => [([], value)]

/-- The ends of the branches of some members, with the names on the way to them. -/
def memberTerminals : List (Text × Json) → List (List Text × Json)
  | [] => []
  | (name, value) :: members =>
      (valueTerminals value).map (fun terminal => (name :: terminal.1, terminal.2))
        ++ memberTerminals members

end

/-- The terminals of a document in order. -/
def terminals (document : Document) : List (List Text × Json) :=
  memberTerminals document

/-- The terminals below one member. -/
def branch (member : Text × Json) : List (List Text × Json) :=
  (valueTerminals member.2).map fun terminal => (member.1 :: terminal.1, terminal.2)

/-- The paths of the leaves of a document in order. -/
def leaves (document : Document) : List (List Text) :=
  (document.terminals.filter fun terminal => terminal.2.members?.isNone).map Prod.fst

theorem terminals_eq_flatMap (document : Document) :
    document.terminals = document.flatMap branch := by
  unfold terminals
  induction document with
  | nil => rfl
  | cons member rest ih =>
      rw [List.flatMap_cons, ← ih]
      obtain ⟨name, value⟩ := member
      rfl

theorem valueTerminals_obj_of_ne_nil {members : Document} (h : members ≠ []) :
    valueTerminals (.obj members) = members.terminals := by
  unfold valueTerminals
  rw [if_neg (by simpa using h)]
  rfl

theorem valueTerminals_leaf {value : Json} (h : value.members? = none) :
    valueTerminals value = [([], value)] := by
  cases value with
  | obj members => simp [Json.members?] at h
  | null | bool _ | int _ | real _ | str _ | arr _ => simp [valueTerminals]

/-! ## Keys are written paths of leaves -/

mutual

theorem leafKeys_eq (path : Text) : (value : Json) →
    leafKeys path value = ((valueTerminals value).filter fun terminal =>
      terminal.2.members?.isNone).map fun terminal => terminal.1.foldl Key.child path
  | .obj [] => by simp [leafKeys, memberKeys, valueTerminals, Json.members?]
  | .obj (member :: rest) => by
      rw [valueTerminals, if_neg (by simp), leafKeys]
      exact memberKeys_eq path (member :: rest)
  | .null => by simp [leafKeys, valueTerminals, Json.members?]
  | .bool _ => by simp [leafKeys, valueTerminals, Json.members?]
  | .int _ => by simp [leafKeys, valueTerminals, Json.members?]
  | .real _ => by simp [leafKeys, valueTerminals, Json.members?]
  | .str _ => by simp [leafKeys, valueTerminals, Json.members?]
  | .arr _ => by simp [leafKeys, valueTerminals, Json.members?]

theorem memberKeys_eq (path : Text) : (members : List (Text × Json)) →
    memberKeys path members = ((memberTerminals members).filter fun terminal =>
      terminal.2.members?.isNone).map fun terminal => terminal.1.foldl Key.child path
  | [] => rfl
  | (name, value) :: rest => by
      rw [memberKeys, memberTerminals, List.filter_append, List.map_append,
        leafKeys_eq (Key.child path name) value, memberKeys_eq path rest, List.filter_map,
        List.map_map]
      rfl

end

/-- The keys of a document are the written paths of its leaves. -/
theorem mem_keys {document : Document} {key : Text} :
    key ∈ document.keys ↔ ∃ path ∈ document.leaves, Key.ofPath path = key := by
  unfold keys leaves
  rw [KeySet.mem_ofList, memberKeys_eq]
  simp [Key.ofPath, terminals]

/-! ## Erasing filters the terminals -/

/-- What erasing the path `segment :: rest` makes of one member. -/
def eraseMember (segment : Text) (rest : List Text) (member : Text × Json) :
    Option (Text × Json) :=
  if member.1 = segment then
    match rest, member.2 with
    | [], _ => none
    | rest, .obj members =>
        if (erasePath rest members).isEmpty && hasPath rest members then none
        else some (member.1, .obj (erasePath rest members))
    | _, _ => some member
  else some member

theorem erasePath_cons (segment : Text) (rest : List Text) (document : Document) :
    document.erasePath (segment :: rest) = document.filterMap (eraseMember segment rest) := by
  cases rest with
  | nil =>
      rw [erasePath, ← List.filterMap_eq_filter]
      refine List.filterMap_congr fun member _ => ?_
      by_cases hname : member.1 = segment
      · simp [eraseMember, hname]
      · simp [eraseMember, hname]
  | cons next rest =>
      rw [erasePath]
      refine List.filterMap_congr fun member _ => ?_
      by_cases hname : member.1 = segment
      · obtain ⟨name, value⟩ := member
        cases value <;> simp [eraseMember]
      · simp [eraseMember, hname]

theorem eraseMember_leaf {name next : Text} {rest : List Text} {value : Json}
    (h : value.members? = none) :
    eraseMember name (next :: rest) (name, value) = some (name, value) := by
  cases value with
  | obj _ => simp [Json.members?] at h
  | null | bool _ | int _ | real _ | str _ | arr _ => simp [eraseMember]

theorem hasPath_cons {segment next : Text} {rest : List Text} {document : Document} :
    hasPath (segment :: next :: rest) document = true ↔
      ∃ members, (segment, .obj members) ∈ document ∧ hasPath (next :: rest) members = true := by
  rw [hasPath, List.any_eq_true]
  constructor
  · rintro ⟨⟨name, value⟩, hmem, htest⟩
    simp only [Bool.and_eq_true, decide_eq_true_eq] at htest
    obtain ⟨rfl, hvalue⟩ := htest
    cases value with
    | obj members => exact ⟨members, hmem, hvalue⟩
    | null | bool _ | int _ | real _ | str _ | arr _ => simp at hvalue
  · rintro ⟨members, hmem, hhas⟩
    exact ⟨_, hmem, by simp [hhas]⟩

/-- Where nothing stands at a path there is nothing to erase. -/
theorem erasePath_of_not_hasPath {path : List Text} {document : Document}
    (h : document.hasPath path = false) : document.erasePath path = document := by
  induction path generalizing document with
  | nil => rw [erasePath]
  | cons segment rest ih =>
      rw [erasePath_cons]
      refine (List.filterMap_congr fun member hmember => ?_).trans List.filterMap_some
      obtain ⟨name, value⟩ := member
      by_cases hname : name = segment
      · subst hname
        cases rest with
        | nil =>
            rw [hasPath, List.any_eq_false] at h
            exact absurd (decide_eq_true rfl) (h _ hmember)
        | cons next rest =>
            cases value with
            | obj members =>
                have hinner : hasPath (next :: rest) members = false := by
                  by_contra hhas
                  have hpath := hasPath_cons.mpr ⟨members, hmember, by simpa using hhas⟩
                  rw [h] at hpath
                  exact Bool.noConfusion hpath
                simp [eraseMember, hinner, ih hinner]
            | null | bool _ | int _ | real _ | str _ | arr _ => simp [eraseMember]
      · simp [eraseMember, hname]

theorem hasPath_nil (segment : Text) (rest : List Text) : hasPath (segment :: rest) [] = false := by
  cases rest <;> rfl

/-- A container on the way goes if it is empty now and was not before. -/
theorem eraseMember_obj {name next : Text} {rest : List Text} {members : Document} :
    eraseMember name (next :: rest) (name, .obj members) =
      if members ≠ [] ∧ members.erasePath (next :: rest) = [] then none
      else some (name, .obj (members.erasePath (next :: rest))) := by
  have hgoes :
      ((members.erasePath (next :: rest)).isEmpty && members.hasPath (next :: rest)) = true ↔
      members ≠ [] ∧ members.erasePath (next :: rest) = [] := by
    rw [Bool.and_eq_true, List.isEmpty_iff, and_comm]
    refine and_congr_left fun hleft => ?_
    constructor
    · rintro hhas rfl
      rw [hasPath_nil] at hhas
      exact Bool.noConfusion hhas
    · intro hmembers
      by_contra hhas
      rw [erasePath_of_not_hasPath (by simpa using hhas)] at hleft
      exact hmembers hleft
  simp only [eraseMember, if_true, hgoes]

theorem flatMap_filterMap {α β γ : Type} (f : α → Option β) (g : β → List γ) (items : List α) :
    (items.filterMap f).flatMap g = items.flatMap fun item => (f item).toList.flatMap g := by
  induction items with
  | nil => rfl
  | cons item rest ih =>
      cases hitem : f item with
      | none => simp [hitem, ih]
      | some value => simp [hitem, ih]

theorem branch_leaf {name : Text} {value : Json} (h : value.members? = none) :
    branch (name, value) = [([name], value)] := by
  unfold branch
  rw [valueTerminals_leaf h]
  rfl

theorem branch_obj {name : Text} {members : Document} (h : members ≠ []) :
    branch (name, .obj members) =
      members.terminals.map fun terminal => (name :: terminal.1, terminal.2) := by
  unfold branch
  rw [valueTerminals_obj_of_ne_nil h]

theorem name_of_mem_branch {member : Text × Json} {terminal : List Text × Json}
    (h : terminal ∈ branch member) : ∃ rest, terminal.1 = member.1 :: rest := by
  obtain ⟨inner, _, rfl⟩ := List.mem_map.mp h
  exact ⟨inner.1, rfl⟩

/-- Whether a terminal is neither at a path nor below it. -/
def outside (path : List Text) (terminal : List Text × Json) : Bool :=
  decide (¬ path <+: terminal.1)

/-- A container on the way keeps the terminals outside the rest of the path, and goes if it has
become empty. -/
theorem branch_eraseMember_obj {name next : Text} {rest : List Text} {members : Document}
    (ih : (members.erasePath (next :: rest)).terminals =
      members.terminals.filter (outside (next :: rest))) :
    (eraseMember name (next :: rest) (name, .obj members)).toList.flatMap branch =
      (branch (name, .obj members)).filter (outside (name :: next :: rest)) := by
  have hshift : ∀ items : List (List Text × Json),
      (items.map fun terminal => (name :: terminal.1, terminal.2)).filter
          (outside (name :: next :: rest)) =
        (items.filter (outside (next :: rest))).map
          fun terminal => (name :: terminal.1, terminal.2) := by
    intro items
    rw [List.filter_map]
    refine congrArg _ (List.filter_congr fun terminal _ => ?_)
    simp [outside]
  rw [eraseMember_obj]
  by_cases hmembers : members = []
  · subst hmembers
    simp [erasePath_cons, branch, valueTerminals, outside]
  · rw [branch_obj hmembers, hshift, ← ih]
    by_cases hleft : members.erasePath (next :: rest) = []
    · -- everything in the container was at the path or below it
      simp [hmembers, hleft, terminals, memberTerminals]
    · simp [hleft, branch_obj hleft]

/-- Erasing a path takes out the terminals at the path and below it, and no other. -/
theorem terminals_erasePath {path : List Text} (hpath : path ≠ []) (document : Document) :
    (document.erasePath path).terminals = document.terminals.filter (outside path) := by
  induction path generalizing document with
  | nil => exact absurd rfl hpath
  | cons segment rest ih =>
      rw [erasePath_cons, terminals_eq_flatMap, terminals_eq_flatMap, List.filter_flatMap,
        flatMap_filterMap]
      refine List.flatMap_congr fun member _ => ?_
      obtain ⟨name, value⟩ := member
      by_cases hname : name = segment
      · subst hname
        cases rest with
        | nil =>
            have hnone : (branch (name, value)).filter (outside [name]) = [] := by
              refine List.filter_eq_nil_iff.mpr fun terminal hterminal => ?_
              obtain ⟨inner, hinner⟩ := name_of_mem_branch hterminal
              simp [outside, hinner]
            rw [hnone]
            simp [eraseMember]
        | cons next rest =>
            cases hvalue : value.members? with
            | some members =>
                obtain rfl := Json.eq_obj_of_members? hvalue
                exact branch_eraseMember_obj (ih (by simp) _)
            | none =>
                rw [eraseMember_leaf hvalue, branch_leaf hvalue]
                simp [branch_leaf hvalue, outside]
      · -- a path through another name
        have hall : (branch (name, value)).filter (outside (segment :: rest)) =
            branch (name, value) := by
          refine List.filter_eq_self.mpr fun terminal hterminal => ?_
          obtain ⟨inner, hinner⟩ := name_of_mem_branch hterminal
          simp [outside, hinner, Ne.symm hname]
        rw [hall]
        simp [eraseMember, hname]

/-! ## Erasing keys -/

theorem segments_ne_nil (key : Text) : Key.segments key ≠ [] :=
  Text.splitOn_ne_nil Key.separator key

theorem mem_leaves {document : Document} {path : List Text} :
    path ∈ document.leaves ↔
      ∃ value : Json, (path, value) ∈ document.terminals ∧ value.members? = none := by
  simp [leaves]

theorem mem_leaves_eraseKey {document : Document} {key : Text} {path : List Text} :
    path ∈ (document.eraseKey key).leaves ↔
      path ∈ document.leaves ∧ ¬ Key.segments key <+: path := by
  unfold eraseKey
  rw [mem_leaves, mem_leaves, terminals_erasePath (segments_ne_nil key)]
  constructor
  · rintro ⟨value, hmem, hleaf⟩
    obtain ⟨hterminal, houtside⟩ := List.mem_filter.mp hmem
    exact ⟨⟨value, hterminal, hleaf⟩, of_decide_eq_true houtside⟩
  · rintro ⟨⟨value, hterminal, hleaf⟩, houtside⟩
    exact ⟨value, List.mem_filter.mpr ⟨hterminal, decide_eq_true houtside⟩, hleaf⟩

theorem eraseKeys_fst (document : Document) (keys : List Text) :
    (document.eraseKeys keys).1 = keys.foldl eraseKey document := by
  unfold eraseKeys
  generalize 0 = count
  induction keys generalizing document count with
  | nil => rfl
  | cons key rest ih => exact ih (document.eraseKey key) _

theorem mem_leaves_eraseKeys {document : Document} {keys : List Text} {path : List Text} :
    path ∈ (document.eraseKeys keys).1.leaves ↔
      path ∈ document.leaves ∧ ∀ key ∈ keys, ¬ Key.segments key <+: path := by
  rw [eraseKeys_fst]
  induction keys generalizing document with
  | nil => simp
  | cons key rest ih =>
      rw [List.foldl_cons, ih, mem_leaves_eraseKey, List.forall_mem_cons, and_assoc]

/-- Erasing keys leaves those that are written for a leaf outside all their segments. -/
theorem mem_keys_eraseKeys {document : Document} {keys : List Text} {key : Text} :
    key ∈ (document.eraseKeys keys).1.keys ↔ ∃ path ∈ document.leaves, Key.ofPath path = key ∧
      ∀ erased ∈ keys, ¬ Key.segments erased <+: path := by
  rw [mem_keys]
  constructor
  · rintro ⟨path, hpath, hkey⟩
    obtain ⟨hleaf, houtside⟩ := mem_leaves_eraseKeys.mp hpath
    exact ⟨path, hleaf, hkey, houtside⟩
  · rintro ⟨path, hleaf, hkey, houtside⟩
    exact ⟨path, mem_leaves_eraseKeys.mpr ⟨hleaf, houtside⟩, hkey⟩

/-- A document without the keys that nothing uses. -/
def pruned (document : Document) (used : KeySet) : Document :=
  (document.eraseKeys (Reconciliation.compare document.keys used).unused.toList).1

/-- A key is lost when the unused ones are erased exactly if every leaf that it is written for
stands at or below the segments of an unused key. -/
theorem lost_by_pruning_iff (document : Document) (used : KeySet) (key : Text) :
    key ∉ (document.pruned used).keys ↔ ∀ path ∈ document.leaves, Key.ofPath path = key →
      ∃ unused ∈ document.keys, unused ∉ used ∧ Key.segments unused <+: path := by
  unfold pruned
  rw [mem_keys_eraseKeys]
  constructor
  · intro hlost path hpath hkey
    by_contra hnone
    refine hlost ⟨path, hpath, hkey, fun erased herased hprefix => hnone ?_⟩
    obtain ⟨hdefined, hunused⟩ := KeySet.mem_diff.mp (KeySet.mem_toList.mp herased)
    exact ⟨erased, hdefined, hunused, hprefix⟩
  · rintro hlost ⟨path, hpath, hkey, houtside⟩
    obtain ⟨unused, hdefined, hunused, hprefix⟩ := hlost path hpath hkey
    have hmem := KeySet.mem_diff.mpr ⟨hdefined, hunused⟩
    exact houtside unused (KeySet.mem_toList.mpr hmem) hprefix

/-- In the document `x: y: z: true, x.y: false` the name with a dot has the key `x.y`.  If only
`x.y.z` is used, erasing `x.y` takes out the container on the way to `x.y.z`. -/
theorem used_key_lost :
    let document : Document :=
      [("x", .obj [("y", .obj [("z", .bool true)])]), ("x.y", .bool false)]
    let used : KeySet := KeySet.ofList ["x.y.z"]
    Text.ofString "x.y.z" ∈ document.keys ∧ Text.ofString "x.y.z" ∈ used ∧
      Text.ofString "x.y.z" ∉ (document.pruned used).keys := by
  decide

end Document

end MessageKeys
