import MessageKeys.Text.Basic

/-!
# Sets of keys

A key set is a strictly ascending list of keys, so a report lists it as it stands and two
sets with the same members are equal (`KeySet.ext`).
-/

namespace MessageKeys

/-- A finite set of keys in ascending order. -/
structure KeySet where
  toList : List Text
  ascending : toList.Pairwise (· < ·) := by exact List.Pairwise.nil

namespace KeySet

instance : Membership Text KeySet := ⟨fun keys key => key ∈ keys.toList⟩

instance (key : Text) (keys : KeySet) : Decidable (key ∈ keys) :=
  inferInstanceAs (Decidable (key ∈ keys.toList))

instance : EmptyCollection KeySet := ⟨{ toList := [] }⟩

instance : Inhabited KeySet := ⟨∅⟩

theorem mem_toList {key : Text} {keys : KeySet} : key ∈ keys.toList ↔ key ∈ keys := Iff.rfl

@[simp] theorem not_mem_empty (key : Text) : key ∉ (∅ : KeySet) := List.not_mem_nil

/-- Put a key in its place in an ascending list. -/
def place (key : Text) : List Text → List Text
  | [] => [key]
  | first :: rest =>
      if key < first then key :: first :: rest
      else if key = first then first :: rest
      else first :: place key rest

theorem mem_place {key other : Text} {keys : List Text} :
    other ∈ place key keys ↔ other = key ∨ other ∈ keys := by
  induction keys with
  | nil => simp [place]
  | cons first rest ih =>
      unfold place
      split
      · simp
      · split
        · rename_i heq
          subst heq
          simp
        · simp only [List.mem_cons, ih]
          exact or_left_comm

theorem pairwise_place (key : Text) {keys : List Text} (h : keys.Pairwise (· < ·)) :
    (place key keys).Pairwise (· < ·) := by
  induction keys with
  | nil => simp [place]
  | cons first rest ih =>
      obtain ⟨hfirst, hrest⟩ := List.pairwise_cons.mp h
      unfold place
      split
      · rename_i hlt
        refine List.pairwise_cons.mpr ⟨?_, h⟩
        intro other hother
        rcases List.mem_cons.mp hother with rfl | hother
        · exact hlt
        · exact List.lt_trans hlt (hfirst other hother)
      · split
        · exact h
        · rename_i hnlt hne
          refine List.pairwise_cons.mpr ⟨?_, ih hrest⟩
          intro other hother
          rcases mem_place.mp hother with rfl | hother
          · rcases List.le_iff_lt_or_eq.mp (List.not_lt.mp hnlt) with hlt | heq
            · exact hlt
            · exact absurd heq.symm hne
          · exact hfirst other hother

/-- Add a key. -/
def insert (key : Text) (keys : KeySet) : KeySet :=
  ⟨place key keys.toList, pairwise_place key keys.ascending⟩

@[simp] theorem mem_insert {key other : Text} {keys : KeySet} :
    other ∈ keys.insert key ↔ other = key ∨ other ∈ keys :=
  mem_place

/-- The set of the keys in a list. -/
def ofList (keys : List Text) : KeySet :=
  keys.foldr insert ∅

@[simp] theorem mem_ofList {key : Text} {keys : List Text} : key ∈ ofList keys ↔ key ∈ keys := by
  induction keys with
  | nil => simp [ofList]
  | cons first rest ih =>
      rw [List.mem_cons, ← ih]
      exact mem_insert

/-- The members that are not in the other set. -/
def diff (keys other : KeySet) : KeySet :=
  ⟨keys.toList.filter (· ∉ other), keys.ascending.filter _⟩

@[simp] theorem mem_diff {key : Text} {keys other : KeySet} :
    key ∈ keys.diff other ↔ key ∈ keys ∧ key ∉ other := by
  change key ∈ keys.toList.filter (· ∉ other) ↔ _
  simp [List.mem_filter, mem_toList]

/-- The members of both sets. -/
def inter (keys other : KeySet) : KeySet :=
  ⟨keys.toList.filter (· ∈ other), keys.ascending.filter _⟩

@[simp] theorem mem_inter {key : Text} {keys other : KeySet} :
    key ∈ keys.inter other ↔ key ∈ keys ∧ key ∈ other := by
  change key ∈ keys.toList.filter (· ∈ other) ↔ _
  simp [List.mem_filter, mem_toList]

/-- The number of members. -/
def size (keys : KeySet) : Nat :=
  keys.toList.length

/-- Whether there are no members. -/
def isEmpty (keys : KeySet) : Bool :=
  keys.toList.isEmpty

theorem eq_of_mem_iff {left right : List Text} (hleft : left.Pairwise (· < ·))
    (hright : right.Pairwise (· < ·)) (h : ∀ key, key ∈ left ↔ key ∈ right) : left = right := by
  induction left generalizing right with
  | nil =>
      cases right with
      | nil => rfl
      | cons first rest => exact absurd ((h first).mpr List.mem_cons_self) List.not_mem_nil
  | cons first rest ih =>
      cases right with
      | nil => exact absurd ((h first).mp List.mem_cons_self) List.not_mem_nil
      | cons other others =>
          obtain ⟨hfirst, hrest⟩ := List.pairwise_cons.mp hleft
          obtain ⟨hother, hothers⟩ := List.pairwise_cons.mp hright
          have heq : first = other := by
            rcases List.mem_cons.mp ((h first).mp List.mem_cons_self) with heq | hmem
            · exact heq
            · rcases List.mem_cons.mp ((h other).mpr List.mem_cons_self) with heq | hmem'
              · exact heq.symm
              · exact absurd (List.lt_trans (hother first hmem) (hfirst other hmem'))
                  (List.lt_irrefl other)
          subst heq
          have htail : ∀ key, key ∈ rest ↔ key ∈ others := by
            intro key
            constructor
            · intro hkey
              rcases List.mem_cons.mp ((h key).mp (List.mem_cons_of_mem _ hkey)) with rfl | hkey'
              · exact absurd (hfirst key hkey) (List.lt_irrefl key)
              · exact hkey'
            · intro hkey
              rcases List.mem_cons.mp ((h key).mpr (List.mem_cons_of_mem _ hkey)) with rfl | hkey'
              · exact absurd (hother key hkey) (List.lt_irrefl key)
              · exact hkey'
          rw [ih hrest hothers htail]

@[ext] theorem ext {left right : KeySet} (h : ∀ key, key ∈ left ↔ key ∈ right) : left = right := by
  obtain ⟨leftList, hleft⟩ := left
  obtain ⟨rightList, hright⟩ := right
  have heq : leftList = rightList := eq_of_mem_iff hleft hright h
  subst heq
  rfl

end KeySet

end MessageKeys
