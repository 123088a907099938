import Mathlib.Data.List.Nodup
import MessageKeys.Assoc

/-!
# Tables with distinct names

A write keeps the names of a table distinct (`nodup_names_insert`).  A table with distinct names is
looked up alike in any order (`get?_of_perm`), and it is what writing its own pairs one by one gives
(`ofList_eq_self`).  Where the first value of a name stays, a row of pairs is looked up like the
table that it writes (`get?_foldl_insertNew`).
-/

namespace MessageKeys.Assoc

variable {α β : Type} [DecidableEq α]

theorem mem_of_get? {name : α} {value : β} {table : List (α × β)}
    (h : get? name table = some value) : (name, value) ∈ table := by
  induction table with
  | nil => simp [get?] at h
  | cons pair rest ih =>
      obtain ⟨other, old⟩ := pair
      unfold get? at h
      split at h
      · rename_i hname
        rw [hname, Option.some.inj h]
        exact List.mem_cons_self
      · exact List.mem_cons_of_mem _ (ih h)

theorem mem_of_mem_insert {name : α} {value : β} {table : List (α × β)} {pair : α × β}
    (h : pair ∈ insert name value table) : pair = (name, value) ∨ pair ∈ table := by
  induction table with
  | nil => exact Or.inl (List.mem_singleton.mp h)
  | cons first rest ih =>
      obtain ⟨other, old⟩ := first
      unfold insert at h
      split at h
      · rcases List.mem_cons.mp h with h | h
        · exact Or.inl h
        · exact Or.inr (List.mem_cons_of_mem _ h)
      · rcases List.mem_cons.mp h with h | h
        · exact Or.inr (h ▸ List.mem_cons_self)
        · rcases ih h with h | h
          · exact Or.inl h
          · exact Or.inr (List.mem_cons_of_mem _ h)

theorem mem_of_mem_insertNew {name : α} {value : β} {table : List (α × β)} {pair : α × β}
    (h : pair ∈ insertNew name value table) : pair = (name, value) ∨ pair ∈ table := by
  unfold insertNew at h
  split at h
  · exact Or.inr h
  · rcases List.mem_append.mp h with h | h
    · exact Or.inr h
    · exact Or.inl (List.mem_singleton.mp h)

theorem mem_of_mem_foldl_insertNew {entries table : List (α × β)} {pair : α × β}
    (h : pair ∈ entries.foldl (fun table entry => insertNew entry.1 entry.2 table) table) :
    pair ∈ entries ∨ pair ∈ table := by
  induction entries generalizing table with
  | nil => exact Or.inr h
  | cons entry rest ih =>
      rcases ih h with h | h
      · exact Or.inl (List.mem_cons_of_mem _ h)
      · rcases mem_of_mem_insertNew h with rfl | h
        · exact Or.inl List.mem_cons_self
        · exact Or.inr h

theorem get?_ne_none {name : α} {value : β} {table : List (α × β)} (h : (name, value) ∈ table) :
    get? name table ≠ none := by
  induction table with
  | nil => simp at h
  | cons pair rest ih =>
      by_cases hname : pair.1 = name
      · simp [get?, hname]
      · rcases List.mem_cons.mp h with h | h
        · exact absurd (congrArg Prod.fst h).symm hname
        · simpa [get?, hname] using ih h

theorem get?_append (name : α) (table other : List (α × β)) :
    get? name (table ++ other) = (get? name table).or (get? name other) := by
  induction table with
  | nil => rfl
  | cons pair rest ih => by_cases h : pair.1 = name <;> simp [get?, h, ih]

theorem get?_insertNew (name other : α) (value : β) (table : List (α × β)) :
    get? name (insertNew other value table) =
      (get? name table).or (get? name [(other, value)]) := by
  unfold insertNew
  split
  · rename_i hsome
    by_cases h : other = name
    · subst h
      obtain ⟨old, hold⟩ := Option.isSome_iff_exists.mp hsome
      simp [hold]
    · simp [get?, h]
  · rw [get?_append]

/-- A row of pairs written one by one, where the first value of a name stays, is looked up like the
row itself. -/
theorem get?_foldl_insertNew (name : α) (entries table : List (α × β)) :
    get? name (entries.foldl (fun table entry => insertNew entry.1 entry.2 table) table) =
      (get? name table).or (get? name entries) := by
  induction entries generalizing table with
  | nil => simp [get?]
  | cons entry rest ih =>
      rw [List.foldl_cons, ih, get?_insertNew, Option.or_assoc, ← get?_append,
        List.singleton_append]

theorem nodup_names_insert {name : α} {value : β} {table : List (α × β)}
    (h : (names table).Nodup) : (names (insert name value table)).Nodup := by
  rw [names_insert]
  split
  · exact h
  · rename_i hnew
    exact List.Nodup.append h (List.nodup_singleton name) (by simpa using hnew)

theorem length_insert_le (name : α) (value : β) (table : List (α × β)) :
    (insert name value table).length ≤ table.length + 1 := by
  have hnames := congrArg List.length (names_insert name value table)
  unfold names at hnames
  split_ifs at hnames with hmem
  · rw [List.length_map, List.length_map] at hnames
    omega
  · rw [List.length_append, List.length_map, List.length_map] at hnames
    exact Nat.le_of_eq hnames

theorem get?_eq_some_iff {name : α} {value : β} {table : List (α × β)}
    (hnodup : (names table).Nodup) : get? name table = some value ↔ (name, value) ∈ table := by
  refine ⟨mem_of_get?, ?_⟩
  induction table with
  | nil => simp
  | cons pair rest ih =>
      obtain ⟨other, old⟩ := pair
      obtain ⟨hfirst, hrest⟩ := List.nodup_cons.mp hnodup
      intro hmem
      unfold get?
      rcases List.mem_cons.mp hmem with heq | hmem
      · obtain ⟨rfl, rfl⟩ := Prod.mk.inj heq
        exact if_pos rfl
      · have hother : other ≠ name := by
          rintro rfl
          exact hfirst (List.mem_map.mpr ⟨_, hmem, rfl⟩)
        rw [if_neg hother]
        exact ih hrest hmem

/-- A table in which every name stands once is looked up alike in any order. -/
theorem get?_of_perm {table other : List (α × β)} (hperm : table.Perm other)
    (hnodup : (names table).Nodup) (name : α) : get? name table = get? name other := by
  refine Option.ext fun value => ?_
  rw [get?_eq_some_iff hnodup, get?_eq_some_iff ((hperm.map Prod.fst).nodup_iff.mp hnodup)]
  exact hperm.mem_iff

theorem insert_of_not_mem {name : α} {value : β} {table : List (α × β)}
    (h : name ∉ names table) : insert name value table = table ++ [(name, value)] := by
  induction table with
  | nil => rfl
  | cons pair rest ih =>
      obtain ⟨other, old⟩ := pair
      obtain ⟨hother, hrest⟩ := not_or.mp (mt List.mem_cons.mpr h)
      unfold insert
      rw [if_neg (Ne.symm hother), ih hrest]
      rfl

/-- A pair of another name makes no difference to where a write goes. -/
theorem insert_append_cons {name : α} {pair : α × β} (h : pair.1 ≠ name) (value : β)
    (front back : List (α × β)) : ∃ front' back',
      insert name value (front ++ back) = front' ++ back' ∧
        insert name value (front ++ pair :: back) = front' ++ pair :: back' := by
  induction front with
  | nil =>
      refine ⟨[], insert name value back, rfl, ?_⟩
      rw [List.nil_append, List.nil_append, insert, if_neg h]
  | cons first rest ih =>
      obtain ⟨other, old⟩ := first
      by_cases hother : other = name
      · refine ⟨(name, value) :: rest, back, ?_, ?_⟩
        · rw [List.cons_append, insert, if_pos hother, List.cons_append]
        · rw [List.cons_append, insert, if_pos hother, List.cons_append]
      · obtain ⟨front', back', hsmall, hlarge⟩ := ih
        refine ⟨(other, old) :: front', back', ?_, ?_⟩
        · rw [List.cons_append, insert, if_neg hother, hsmall, List.cons_append]
        · rw [List.cons_append, insert, if_neg hother, hlarge, List.cons_append]

theorem foldl_insert_eq_append (table : List (α × β)) {pairs : List (α × β)}
    (h : (names (table ++ pairs)).Nodup) :
    pairs.foldl (fun table pair => insert pair.1 pair.2 table) table = table ++ pairs := by
  induction pairs generalizing table with
  | nil => rw [List.foldl_nil, List.append_nil]
  | cons pair pairs ih =>
      have hsplit : table ++ pair :: pairs = (table ++ [pair]) ++ pairs := by simp
      have hnew : pair.1 ∉ names table := by
        intro hmem
        unfold names at h hmem
        rw [List.map_append, List.map_cons, List.nodup_append] at h
        exact h.2.2 pair.1 hmem pair.1 List.mem_cons_self rfl
      rw [List.foldl_cons, insert_of_not_mem hnew, hsplit, ih _ (hsplit ▸ h)]

/-- Writing the pairs of a table with distinct names one by one gives the table. -/
theorem ofList_eq_self {pairs : List (α × β)} (h : (names pairs).Nodup) : ofList pairs = pairs :=
  foldl_insert_eq_append [] h

theorem ofList_spec (pairs : List (α × β)) :
    (names (ofList pairs)).Nodup ∧ ∀ pair ∈ ofList pairs, pair ∈ pairs := by
  -- the invariant of the fold over the pairs that are still to be written
  have hfold : ∀ (rest table : List (α × β)), (names table).Nodup →
      (∀ pair ∈ table, pair ∈ pairs) → (∀ pair ∈ rest, pair ∈ pairs) →
      (names (rest.foldl (fun table pair => insert pair.1 pair.2 table) table)).Nodup ∧
        ∀ pair ∈ rest.foldl (fun table pair => insert pair.1 pair.2 table) table,
          pair ∈ pairs := by
    intro rest
    induction rest with
    | nil => exact fun table hnodup htable _ => ⟨hnodup, htable⟩
    | cons first rest ih =>
        intro table hnodup htable hrest
        refine ih _ (nodup_names_insert hnodup) ?_
          (fun pair hpair => hrest pair (List.mem_cons_of_mem first hpair))
        intro pair hpair
        rcases mem_of_mem_insert hpair with rfl | hpair
        · exact hrest _ List.mem_cons_self
        · exact htable pair hpair
  exact hfold pairs [] List.nodup_nil (by simp) (fun _ h => h)

theorem get?_map {γ : Type} (f : β → γ) (name : α) (table : List (α × β)) :
    get? name (table.map fun pair => (pair.1, f pair.2)) = (get? name table).map f := by
  induction table with
  | nil => rfl
  | cons first rest ih =>
      rw [List.map_cons, get?, get?]
      split_ifs
      · rfl
      · exact ih

/-- A value that is not told from the old one may be put in its place. -/
theorem map_insert {γ : Type} {f : β → γ} {name : α} {value old : β} {table : List (α × β)}
    (hold : get? name table = some old) (hvalue : f value = f old) :
    ((insert name value table).map fun pair => (pair.1, f pair.2))
      = table.map fun pair => (pair.1, f pair.2) := by
  induction table with
  | nil => contradiction
  | cons first rest ih =>
      rw [get?] at hold
      rw [insert]
      split_ifs at hold ⊢ with hname
      · obtain rfl := Option.some.inj hold
        rw [List.map_cons, List.map_cons, hvalue, hname]
      · rw [List.map_cons, List.map_cons, ih hold]

end MessageKeys.Assoc
