import MessageKeys.Proofs.Json.RoundTrip

/-!
# The limits of the reader and the writer

Whether a value can have been read is seen from its depth and from each value inside it taken alone
(`readable_iff`): the reader follows no deeper nesting than it has room for, takes no whole number
with more digits than the limits allow, knows one value that is not a number, and keeps each name of
an object once.  The writer asks for the first two only, with a room of its own
(`refusal?_eq_none_iff`).
-/

namespace MessageKeys.Json

mutual

/-- A value and all the values inside it. -/
def values : Json → List Json
  | .arr items => .arr items :: itemValues items
  | .obj members => .obj members :: memberValues members
  | value => [value]

/-- The items of an array and all the values inside them. -/
def itemValues : List Json → List Json
  | [] => []
  | item :: items => values item ++ itemValues items

/-- The values of the members of an object and all the values inside them. -/
def memberValues : List (Text × Json) → List Json
  | [] => []
  | (_, value) :: members => values value ++ memberValues members

end

mutual

/-- The number of levels of arrays and objects in a value. -/
def depth : Json → ℕ
  | .arr items => itemDepth items + 1
  | .obj members => memberDepth members + 1
  | _ => 0

/-- The greatest depth of an item. -/
def itemDepth : List Json → ℕ
  | [] => 0
  | item :: items => max (depth item) (itemDepth items)

/-- The greatest depth of a member. -/
def memberDepth : List (Text × Json) → ℕ
  | [] => 0
  | (_, value) :: members => max (depth value) (memberDepth members)

end

theorem mem_itemValues {items : List Json} {inner : Json} :
    inner ∈ itemValues items ↔ ∃ item ∈ items, inner ∈ values item := by
  induction items with
  | nil => simp [itemValues]
  | cons item items ih => simp [itemValues, ih]

theorem mem_memberValues {members : List (Text × Json)} {inner : Json} :
    inner ∈ memberValues members ↔ ∃ member ∈ members, inner ∈ values member.2 := by
  induction members with
  | nil => simp [memberValues]
  | cons member members ih => simp [memberValues, ih]

theorem itemDepth_le {items : List Json} {room : ℕ} :
    itemDepth items ≤ room ↔ ∀ item ∈ items, depth item ≤ room := by
  induction items with
  | nil => simp [itemDepth]
  | cons item items ih => rw [itemDepth, max_le_iff, ih, List.forall_mem_cons]

theorem memberDepth_le {members : List (Text × Json)} {room : ℕ} :
    memberDepth members ≤ room ↔ ∀ member ∈ members, depth member.2 ≤ room := by
  induction members with
  | nil => simp [memberDepth]
  | cons member members ih => rw [memberDepth, max_le_iff, ih, List.forall_mem_cons]

/-- What the reader asks of a value itself, whatever is inside it. -/
def Regular [Limits] : Json → Prop
  | .int n => (Numeral.decimal n.natAbs).length ≤ Limits.digits
  | .real x => x.shape = .notANumber → x = Binary64.nan
  | .obj members => (Assoc.names members).Nodup
  | _ => True

theorem Readable.regular [Limits] {room : ℕ} {value : Json} (h : Readable room value) :
    depth value ≤ room ∧ ∀ inner ∈ values value, Regular inner := by
  induction h with
  | null | bool _ | str _ => simp [depth, values, Regular]
  | int h => simpa [depth, values, Regular] using h
  | real h => simpa [depth, values, Regular] using h
  | @arr room items _ ih =>
      refine ⟨?_, ?_⟩
      · rw [depth]
        exact Nat.succ_le_succ (itemDepth_le.mpr fun item hitem => (ih item hitem).1)
      · rw [values, List.forall_mem_cons]
        refine ⟨trivial, fun inner hinner => ?_⟩
        obtain ⟨item, hitem, hinner⟩ := mem_itemValues.mp hinner
        exact (ih item hitem).2 inner hinner
  | @obj room members hnames _ ih =>
      refine ⟨?_, ?_⟩
      · rw [depth]
        exact Nat.succ_le_succ (memberDepth_le.mpr fun member hmember => (ih member hmember).1)
      · rw [values, List.forall_mem_cons]
        refine ⟨hnames, fun inner hinner => ?_⟩
        obtain ⟨member, hmember, hinner⟩ := mem_memberValues.mp hinner
        exact (ih member hmember).2 inner hinner

theorem readable_of_regular [Limits] {room : ℕ} (value : Json) (hdepth : depth value ≤ room)
    (h : ∀ inner ∈ values value, Regular inner) : Readable room value := by
  match value with
  | .null => exact .null
  | .bool b => exact .bool b
  | .int n => exact .int (h (.int n) List.mem_cons_self)
  | .real x => exact .real (h (.real x) List.mem_cons_self)
  | .str s => exact .str s
  | .arr items =>
      obtain ⟨room, rfl⟩ := Nat.exists_eq_add_of_le' (Nat.le_trans (Nat.le_add_left 1 _) hdepth)
      have hitems := itemDepth_le.mp (Nat.succ_le_succ_iff.mp hdepth)
      refine .arr fun item hitem =>
        readable_of_regular item (hitems item hitem) fun inner hinner => ?_
      exact h inner (List.mem_cons_of_mem _ (mem_itemValues.mpr ⟨item, hitem, hinner⟩))
  | .obj members =>
      obtain ⟨room, rfl⟩ := Nat.exists_eq_add_of_le' (Nat.le_trans (Nat.le_add_left 1 _) hdepth)
      have hmembers := memberDepth_le.mp (Nat.succ_le_succ_iff.mp hdepth)
      refine .obj (h (.obj members) List.mem_cons_self) fun member hmember =>
        readable_of_regular member.2 (hmembers member hmember) fun inner hinner => ?_
      exact h inner (List.mem_cons_of_mem _ (mem_memberValues.mpr ⟨member, hmember, hinner⟩))
termination_by value
decreasing_by
  · have := List.sizeOf_lt_of_mem hitem
    simp only [Json.arr.sizeOf_spec]
    omega
  · have := List.sizeOf_lt_of_mem hmember
    obtain ⟨name, value⟩ := member
    simp only [Json.obj.sizeOf_spec, Prod.mk.sizeOf_spec] at this ⊢
    omega

/-- Every object in a value has distinct names. -/
def DistinctNames (value : Json) : Prop :=
  ∀ members, .obj members ∈ values value → (Assoc.names members).Nodup

namespace DistinctNames

variable {members : List (Text × Json)}

theorem nodup (h : DistinctNames (.obj members)) : (Assoc.names members).Nodup :=
  h members List.mem_cons_self

theorem member (h : DistinctNames (.obj members)) {member : Text × Json}
    (hmember : member ∈ members) :
    DistinctNames member.2 := by
  intro inner hinner
  exact h inner (List.mem_cons_of_mem _ (mem_memberValues.mpr ⟨member, hmember, hinner⟩))

end DistinctNames

theorem Readable.distinctNames [Limits] {room : ℕ} {value : Json} (h : Readable room value) :
    DistinctNames value := by
  intro members hmembers
  exact h.regular.2 (.obj members) hmembers

/-- A value can have been read exactly if it is not too deep and every value in it is one the reader
gives. -/
theorem readable_iff [Limits] {room : ℕ} {value : Json} :
    Readable room value ↔ depth value ≤ room ∧ ∀ inner ∈ values value, Regular inner :=
  ⟨Readable.regular, fun h => readable_of_regular value h.1 h.2⟩

/-! ## What is written -/

/-- No whole number among some values is too long. -/
def ShortIntegers [Limits] (parts : List Json) : Prop :=
  ∀ n, .int n ∈ parts → (Numeral.decimal n.natAbs).length ≤ Limits.digits

theorem shortIntegers_append [Limits] {front back : List Json} :
    ShortIntegers (front ++ back) ↔ ShortIntegers front ∧ ShortIntegers back := by
  simp only [ShortIntegers, List.mem_append, or_imp, forall_and]

mutual

/-- The writer refuses what is nested too deep or has a whole number that is too long, and nothing
else. -/
theorem refusal?_eq_none_iff [Limits] (room : ℕ) : ∀ value,
    refusal? room value = none ↔ depth value ≤ room ∧ ShortIntegers (values value)
  | .null | .bool _ | .real _ | .str _ => by simp [refusal?, depth, values, ShortIntegers]
  | .int n => by simp [refusal?, depth, values, ShortIntegers]
  | .arr items => by
      have hinside : ShortIntegers (values (.arr items)) ↔ ShortIntegers (itemValues items) := by
        simp [values, ShortIntegers]
      cases room with
      | zero => simp [refusal?, depth]
      | succ room =>
          rw [refusal?, depth, itemsRefusal?_eq_none_iff room items, hinside,
            Nat.succ_le_succ_iff]
  | .obj members => by
      have hinside : ShortIntegers (values (.obj members))
          ↔ ShortIntegers (memberValues members) := by
        simp [values, ShortIntegers]
      cases room with
      | zero => simp [refusal?, depth]
      | succ room =>
          rw [refusal?, depth, membersRefusal?_eq_none_iff room members, hinside,
            Nat.succ_le_succ_iff]

theorem itemsRefusal?_eq_none_iff [Limits] (room : ℕ) : ∀ items,
    itemsRefusal? room items = none ↔ itemDepth items ≤ room ∧ ShortIntegers (itemValues items)
  | [] => by simp [itemsRefusal?, itemDepth, itemValues, ShortIntegers]
  | item :: items => by
      have hboth : itemsRefusal? room (item :: items) = none ↔
          refusal? room item = none ∧ itemsRefusal? room items = none := by
        rw [itemsRefusal?]
        cases refusal? room item <;> simp
      rw [hboth, refusal?_eq_none_iff room item, itemsRefusal?_eq_none_iff room items, itemDepth,
        itemValues, shortIntegers_append, max_le_iff, and_and_and_comm]

theorem membersRefusal?_eq_none_iff [Limits] (room : ℕ) : ∀ members,
    membersRefusal? room members = none ↔
      memberDepth members ≤ room ∧ ShortIntegers (memberValues members)
  | [] => by simp [membersRefusal?, memberDepth, memberValues, ShortIntegers]
  | (name, value) :: members => by
      have hboth : membersRefusal? room ((name, value) :: members) = none ↔
          refusal? room value = none ∧ membersRefusal? room members = none := by
        rw [membersRefusal?]
        cases refusal? room value <;> simp
      rw [hboth, refusal?_eq_none_iff room value, membersRefusal?_eq_none_iff room members,
        memberDepth, memberValues, shortIntegers_append, max_le_iff, and_and_and_comm]

end

theorem Readable.shortIntegers [Limits] {room : ℕ} {value : Json} (h : Readable room value) :
    ShortIntegers (values value) :=
  fun n hn => h.regular.2 (.int n) hn

end MessageKeys.Json
