/-!
# Insertion-ordered tables

A table is a list of pairs.  A look-up finds the first pair of a name; a write replaces
the value where its name stands and puts a new name at the end.  So the names of a table
keep the order in which they were first written.
-/

namespace MessageKeys.Assoc

variable {α β : Type} [DecidableEq α]

/-- The value of a name. -/
def get? (name : α) : List (α × β) → Option β
  | [] => none
  | (other, value) :: rest => if other = name then some value else get? name rest

/-- Give a name a value. -/
def insert (name : α) (value : β) : List (α × β) → List (α × β)
  | [] => [(name, value)]
  | (other, old) :: rest =>
      if other = name then (name, value) :: rest else (other, old) :: insert name value rest

/-- Give a name a value unless it has one. -/
def insertNew (name : α) (value : β) (table : List (α × β)) : List (α × β) :=
  if (get? name table).isSome then table else table ++ [(name, value)]

/-- Drop a name. -/
def erase (name : α) (table : List (α × β)) : List (α × β) :=
  table.filter fun pair => pair.1 ≠ name

/-- The table written by a row of pairs, first to last. -/
def ofList (pairs : List (α × β)) : List (α × β) :=
  pairs.foldl (fun table pair => insert pair.1 pair.2 table) []

/-- The names of a table, in order. -/
def names (table : List (α × β)) : List α :=
  table.map Prod.fst

@[simp] theorem get?_insert_self (name : α) (value : β) (table : List (α × β)) :
    get? name (insert name value table) = some value := by
  induction table with
  | nil => simp [insert, get?]
  | cons pair rest ih =>
      obtain ⟨other, old⟩ := pair
      by_cases h : other = name <;> simp [insert, get?, h, ih]

theorem get?_insert_of_ne {name other : α} (h : other ≠ name) (value : β)
    (table : List (α × β)) : get? other (insert name value table) = get? other table := by
  induction table with
  | nil => simp [insert, get?, Ne.symm h]
  | cons pair rest ih =>
      obtain ⟨third, old⟩ := pair
      by_cases hthird : third = name
      · simp [insert, get?, hthird, Ne.symm h]
      · by_cases hother : third = other
        · simp [insert, get?, hother, h]
        · simp [insert, get?, hthird, hother, ih]

theorem names_insert (name : α) (value : β) (table : List (α × β)) :
    names (insert name value table) =
      if name ∈ names table then names table else names table ++ [name] := by
  induction table with
  | nil => simp [insert, names]
  | cons pair rest ih =>
      obtain ⟨other, old⟩ := pair
      by_cases h : other = name
      · simp [insert, names, h]
      · have hne : name ≠ other := Ne.symm h
        have hcons : names (insert name value ((other, old) :: rest)) =
            other :: names (insert name value rest) := by
          simp [insert, names, h]
        rw [hcons, ih]
        by_cases hmem : name ∈ names rest
        · simp [names] at hmem ⊢
          simp [hmem]
        · simp [names] at hmem ⊢
          simp [hmem, hne]

end MessageKeys.Assoc
