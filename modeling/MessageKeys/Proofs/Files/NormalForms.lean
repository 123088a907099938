import Mathlib.Data.List.Induction
import Mathlib.Tactic.IntervalCases
import MessageKeys.Files.PathName
import MessageKeys.Proofs.Text.Pieces

/-!
# Normal forms of path names

The components of a path are pushed one by one onto a stack.  `Settled` says what such a stack can
hold: names, and below them, in a relative path, components that lead up.  A step keeps this
(`settled_push`), and a settled stack is what pushing its own components gives
(`Settled.foldl_push_reverse`).

A path is a directory part, empty or ending in a slash, and a name.  The directory part has a normal
form of its own (`headForm`), and a proper name stays as it is behind it
(`normalize_append_name`).  So a normal path keeps its form when its last component is exchanged for
another name (`normalize_cases`).
-/

namespace MessageKeys.PathName

/-- A component that stands for itself. -/
structure IsName (component : Text) : Prop where
  ne_nil : component ≠ []
  ne_here : component ≠ here
  ne_up : component ≠ up
  slash_not_mem : slash ∉ component

/-! ## The stack of components -/

/-- What a stack of components can hold, given from the last component back. -/
inductive Settled (absolute : Bool) : List Text → Prop
  | nil : Settled absolute []
  | name {stack : List Text} {component : Text} (hstack : Settled absolute stack)
      (hname : IsName component) : Settled absolute (component :: stack)
  | ascent {stack : List Text} (hstack : Settled absolute stack) (hrelative : absolute = false)
      (hall : ∀ component ∈ stack, component = up) : Settled absolute (up :: stack)

theorem push_of_name {absolute : Bool} {stack : List Text} {component : Text}
    (h : IsName component) : push absolute stack component = component :: stack := by
  unfold push
  rw [if_neg (by simp [h.ne_nil, h.ne_here]), if_pos h.ne_up]

theorem push_nil (absolute : Bool) (stack : List Text) : push absolute stack [] = stack := rfl

theorem push_up_of_forall {stack : List Text} (h : ∀ component ∈ stack, component = up) :
    push false stack up = up :: stack := by
  cases stack with
  | nil => rfl
  | cons top rest =>
      rw [h top List.mem_cons_self]
      rfl

theorem Settled.ne_nil_and_slash_not_mem {absolute : Bool} {stack : List Text}
    (h : Settled absolute stack) : ∀ component ∈ stack, component ≠ [] ∧ slash ∉ component := by
  have hup : up ≠ [] ∧ slash ∉ up := by decide
  induction h with
  | nil => simp
  | name _ hname ih => exact List.forall_mem_cons.mpr ⟨⟨hname.ne_nil, hname.slash_not_mem⟩, ih⟩
  | ascent _ _ _ ih => exact List.forall_mem_cons.mpr ⟨hup, ih⟩

theorem Settled.of_cons {absolute : Bool} {stack : List Text} {component : Text}
    (h : Settled absolute (component :: stack)) : Settled absolute stack := by
  cases h with
  | name hstack _ => exact hstack
  | ascent hstack _ _ => exact hstack

/-- Taking one more component keeps a stack settled. -/
theorem settled_push {absolute : Bool} {stack : List Text} (h : Settled absolute stack)
    {component : Text} (hslash : slash ∉ component) :
    Settled absolute (push absolute stack component) := by
  unfold push
  by_cases hempty : (component.isEmpty || decide (component = here)) = true
  · rw [if_pos hempty]
    exact h
  rw [if_neg hempty]
  simp only [Bool.or_eq_true, List.isEmpty_iff, decide_eq_true_eq, not_or] at hempty
  by_cases hup : component = up
  · -- a component that leads up: what it does depends on the top of the stack
    rw [if_neg (not_not.mpr hup)]
    cases h with
    | nil =>
        cases absolute with
        | true => exact .nil
        | false => exact .ascent .nil rfl (by simp)
    | name hrest hname =>
        simp only [if_neg hname.ne_up]
        exact hrest
    | ascent hrest hrelative hall =>
        exact .ascent (.ascent hrest hrelative hall) hrelative
          (List.forall_mem_cons.mpr ⟨rfl, hall⟩)
  · rw [if_pos hup]
    exact .name h ⟨hempty.1, hempty.2, hup, hslash⟩

theorem settled_foldl_push {absolute : Bool} {stack components : List Text}
    (h : Settled absolute stack) (hslash : ∀ component ∈ components, slash ∉ component) :
    Settled absolute (components.foldl (push absolute) stack) := by
  induction components generalizing stack with
  | nil => exact h
  | cons component rest ih =>
      obtain ⟨hcomponent, hrest⟩ := List.forall_mem_cons.mp hslash
      exact ih (settled_push h hcomponent) hrest

/-- Pushing the components of a settled stack builds the stack again. -/
theorem Settled.foldl_push_reverse {absolute : Bool} {stack : List Text}
    (h : Settled absolute stack) : stack.reverse.foldl (push absolute) [] = stack := by
  induction h with
  | nil => rfl
  | name _ hname ih =>
      rw [List.reverse_cons, List.foldl_append, ih, List.foldl_cons, push_of_name hname,
        List.foldl_nil]
  | ascent _ hrelative hall ih =>
      rw [List.reverse_cons, List.foldl_append, ih, hrelative, List.foldl_cons,
        push_up_of_forall hall, List.foldl_nil]

theorem foldl_push_replicate (absolute : Bool) (stack : List Text) (count : Nat) :
    (List.replicate count []).foldl (push absolute) stack = stack := by
  induction count with
  | zero => rfl
  | succ count ih => rw [List.replicate_succ, List.foldl_cons, push_nil, ih]

/-- The components of a path, from the last one back, are settled. -/
theorem settled_components (path : Text) :
    Settled (decide (0 < leading path)) (components path).reverse := by
  rw [components, List.reverse_reverse]
  exact settled_foldl_push .nil fun _ => Text.not_mem_of_mem_splitOn

theorem leading_le (path : Text) : leading path ≤ 2 := by
  unfold leading
  dsimp only
  split_ifs <;> omega

/-! ## Directory parts -/

/-- The part of a path in front of a name: nothing, or what ends in a slash. -/
def IsHead (head : Text) : Prop :=
  head = [] ∨ ∃ front, head = front ++ [slash]

/-- A directory part with `lead` leading slashes and some components.  A leading slash is written
like an empty component. -/
def spellHead (lead : Nat) (components : List Text) : Text :=
  (List.replicate lead [] ++ components).flatMap (· ++ [slash])

/-- The normal form of a directory part. -/
def headForm (head : Text) : Text :=
  spellHead (leading head) (components head)

theorem spellHead_concat (lead : Nat) (components : List Text) (component : Text) :
    spellHead lead (components ++ [component]) =
      spellHead lead components ++ component ++ [slash] := by
  simp [spellHead]

theorem isHead_spellHead (lead : Nat) (components : List Text) :
    IsHead (spellHead lead components) := by
  cases components using List.reverseRecOn with
  | nil =>
      cases lead with
      | zero => exact Or.inl rfl
      | succ lead =>
          refine Or.inr ⟨spellHead lead [], ?_⟩
          simp [spellHead, List.replicate_succ']
  | append_singleton components component =>
      exact Or.inr ⟨_, spellHead_concat lead components component⟩

theorem replicate_append_join (lead : Nat) (components : List Text) (name : Text) :
    List.replicate lead slash ++ Text.join [slash] (components ++ [name]) =
      spellHead lead components ++ name := by
  rw [Text.join_concat, spellHead, List.flatMap_append, List.append_assoc]
  congr 1
  induction lead with
  | zero => rfl
  | succ lead ih => rw [List.replicate_succ, List.replicate_succ, List.flatMap_cons, ih]; rfl

theorem takeWhile_slash_eq_nil {name : Text} (h : slash ∉ name) :
    name.takeWhile (· = slash) = [] := by
  cases name with
  | nil => rfl
  | cons c others =>
      have hc : c ≠ slash := fun heq => h (heq ▸ List.mem_cons_self)
      simp [hc]

theorem takeWhile_slash_append {name : Text} (hne : name ≠ []) (h : slash ∉ name) (rest : Text) :
    (name ++ rest).takeWhile (· = slash) = [] := by
  cases name with
  | nil => exact absurd rfl hne
  | cons c others =>
      have hc : c ≠ slash := fun heq => h (heq ▸ List.mem_cons_self)
      simp [hc]

/-- What does not start with a slash adds no leading slash. -/
theorem leading_append {rest : Text} (head : Text) (h : rest.takeWhile (· = slash) = []) :
    leading (head ++ rest) = leading head := by
  have hlength : ((head ++ rest).takeWhile (· = slash)).length =
      (head.takeWhile (· = slash)).length := by
    rw [List.takeWhile_append, h, List.append_nil]
    split_ifs with hall
    · exact hall.symm
    · rfl
  rw [leading, leading, hlength]

/-- A name behind a directory part is one more component. -/
theorem components_append_name {head name : Text} (hhead : IsHead head) (hname : IsName name) :
    components (head ++ name) = components head ++ [name] := by
  have hpieces := Text.splitOn_of_not_mem hname.slash_not_mem
  unfold components
  rw [leading_append head (takeWhile_slash_eq_nil hname.slash_not_mem)]
  rcases hhead with rfl | ⟨front, rfl⟩
  · rw [List.nil_append, hpieces, List.foldl_cons, push_of_name hname]
    rfl
  · -- the piece between the last slash and the name is empty, so it adds nothing
    rw [List.append_assoc, List.singleton_append, Text.splitOn_append, hpieces,
      Text.splitOn_append, List.foldl_append, List.foldl_cons, push_of_name hname,
      List.foldl_append, List.foldl_nil, List.reverse_cons]
    rfl

/-- A proper name stays as it is behind the normal form of its directory part. -/
theorem normalize_append_name {head name : Text} (hhead : IsHead head) (hname : IsName name) :
    normalize (head ++ name) = headForm head ++ name := by
  unfold normalize
  rw [leading_append head (takeWhile_slash_eq_nil hname.slash_not_mem),
    components_append_name hhead hname, replicate_append_join]
  exact if_neg (by simp [hname.ne_nil])

/-! ## Normal directory parts -/

section Spelled

variable {lead : Nat} {components : List Text}

theorem spellHead_eq (lead : Nat) (components : List Text) :
    spellHead lead components =
      List.replicate lead slash ++ components.flatMap (· ++ [slash]) := by
  rw [spellHead, List.flatMap_append]
  congr 1
  induction lead with
  | zero => rfl
  | succ lead ih => rw [List.replicate_succ, List.replicate_succ, List.flatMap_cons, ih]; rfl

theorem leading_spellHead (hlead : lead ≤ 2)
    (h : Settled (decide (0 < lead)) components.reverse) :
    leading (spellHead lead components) = lead := by
  have hrest : (components.flatMap (· ++ [slash])).takeWhile (· = slash) = [] := by
    cases components with
    | nil => rfl
    | cons first rest =>
        obtain ⟨hne, hslash⟩ := h.ne_nil_and_slash_not_mem first (by simp)
        rw [List.flatMap_cons, List.append_assoc]
        exact takeWhile_slash_append hne hslash _
  have hcount : ((spellHead lead components).takeWhile (· = slash)).length = lead := by
    rw [spellHead_eq, List.takeWhile_append_of_pos (by simp), hrest]
    simp
  rw [leading, hcount]
  split_ifs <;> omega

theorem slash_not_mem_pieces {absolute : Bool} (h : Settled absolute components.reverse) :
    ∀ piece ∈ List.replicate lead [] ++ components, slash ∉ piece := by
  intro piece hpiece
  rcases List.mem_append.mp hpiece with hempty | hcomponent
  · simp [List.eq_of_mem_replicate hempty]
  · exact (h.ne_nil_and_slash_not_mem piece (List.mem_reverse.mpr hcomponent)).2

theorem components_spellHead (hlead : lead ≤ 2)
    (h : Settled (decide (0 < lead)) components.reverse) :
    PathName.components (spellHead lead components) = components := by
  have hsplit : Text.splitOn slash (spellHead lead components) =
      List.replicate lead [] ++ components ++ [[]] := by
    rw [spellHead, ← List.append_nil (List.flatMap _ _),
      Text.splitOn_flatMap [] (slash_not_mem_pieces h)]
    rfl
  have hfold := h.foldl_push_reverse
  rw [List.reverse_reverse] at hfold
  rw [PathName.components, leading_spellHead hlead h, hsplit, List.foldl_append, List.foldl_append,
    foldl_push_replicate, hfold, List.foldl_cons, push_nil, List.foldl_nil, List.reverse_reverse]

theorem headForm_spellHead (hlead : lead ≤ 2)
    (h : Settled (decide (0 < lead)) components.reverse) :
    headForm (spellHead lead components) = spellHead lead components := by
  rw [headForm, leading_spellHead hlead h, components_spellHead hlead h]

end Spelled

theorem isHead_headForm (head : Text) : IsHead (headForm head) :=
  isHead_spellHead _ _

/-- The normal form of a path that ends in a name, taken as a directory. -/
theorem headForm_append_name {head name : Text} (hhead : IsHead head) (hname : IsName name) :
    headForm (head ++ name ++ [slash]) = headForm head ++ name ++ [slash] := by
  have hlead : leading (head ++ name ++ [slash]) = leading head := by
    rw [List.append_assoc]
    exact leading_append head (takeWhile_slash_append hname.ne_nil hname.slash_not_mem _)
  have hsame : leading (head ++ name) = leading head :=
    leading_append head (takeWhile_slash_eq_nil hname.slash_not_mem)
  have hcomponents : components (head ++ name ++ [slash]) = components (head ++ name) := by
    unfold components
    rw [hlead, hsame, Text.splitOn_append, List.foldl_append]
    rfl
  rw [headForm, hlead, hcomponents, components_append_name hhead hname, spellHead_concat]
  rfl

/-- A directory part in normal form and a last component that may follow it make a normal path. -/
theorem normalize_spellHead_append {lead : Nat} {components : List Text} {last : Text}
    (hlead : lead ≤ 2) (h : Settled (decide (0 < lead)) (last :: components.reverse)) :
    normalize (spellHead lead components ++ last) = spellHead lead components ++ last := by
  obtain ⟨hne, hlast⟩ := h.ne_nil_and_slash_not_mem last List.mem_cons_self
  have hform : leading (spellHead lead components ++ last) = lead := by
    rw [leading_append _ (takeWhile_slash_eq_nil hlast), leading_spellHead hlead h.of_cons]
  have hsplit : Text.splitOn slash (spellHead lead components ++ last) =
      List.replicate lead [] ++ (components ++ [last]) := by
    rw [spellHead, Text.splitOn_flatMap last (slash_not_mem_pieces h.of_cons),
      Text.splitOn_of_not_mem hlast, List.append_assoc]
  have hfold := h.foldl_push_reverse
  rw [List.reverse_cons, List.reverse_reverse] at hfold
  have hcomponents : PathName.components (spellHead lead components ++ last) =
      components ++ [last] := by
    rw [PathName.components, hform, hsplit, List.foldl_append, foldl_push_replicate, hfold,
      List.reverse_cons, List.reverse_reverse]
  unfold normalize
  rw [hform, hcomponents, replicate_append_join]
  exact if_neg (by simp [hne])

/-- A normal path is the directory itself, one or two slashes, or a directory part in normal form
with a last component behind it. -/
theorem normalize_cases (path : Text) :
    normalize path = here ∨ normalize path = [slash] ∨ normalize path = [slash, slash] ∨
      ∃ head name, headForm head = head ∧ name ≠ [] ∧ slash ∉ name ∧
        headForm (head ++ name ++ [slash]) = head ++ name ++ [slash] ∧
        normalize (head ++ name) = head ++ name ∧ normalize path = head ++ name := by
  have hlead := leading_le path
  have hsettled := settled_components path
  rcases List.eq_nil_or_concat (components path) with hnone | ⟨init, last, hsplit⟩
  · -- no component: the path consists of its leading slashes, or it is empty
    unfold normalize
    rw [hnone]
    interval_cases leading path
    · exact Or.inl rfl
    · exact Or.inr (Or.inl rfl)
    · exact Or.inr (Or.inr (Or.inl rfl))
  · rw [List.concat_eq_append] at hsplit
    rw [hsplit, List.reverse_append] at hsettled
    obtain ⟨hne, hslash⟩ := hsettled.ne_nil_and_slash_not_mem last (by simp)
    refine Or.inr (Or.inr (Or.inr ⟨spellHead (leading path) init, last,
      headForm_spellHead hlead hsettled.of_cons, hne, hslash, ?_,
      normalize_spellHead_append hlead hsettled, ?_⟩))
    · rw [← spellHead_concat]
      exact headForm_spellHead hlead (by rwa [List.reverse_append])
    · unfold normalize
      rw [hsplit, replicate_append_join]
      exact if_neg (by simp [hne])

@[simp] theorem normalize_normalize (path : Text) :
    normalize (normalize path) = normalize path := by
  rcases normalize_cases path with h | h | h | ⟨head, name, _, _, _, _, hnormal, h⟩
  · rw [h]
    decide
  · rw [h]
    decide
  · rw [h]
    decide
  · rw [h, hnormal]

/-! ## The last component -/

theorem base_append {head name : Text} (hhead : IsHead head) (hslash : slash ∉ name) :
    base (head ++ name) = name := by
  have hall : ∀ c ∈ name.reverse, decide (c ≠ slash) = true := by
    intro c hc
    exact decide_eq_true fun heq => hslash (heq ▸ List.mem_reverse.mp hc)
  have hhead' : head.reverse.takeWhile (· ≠ slash) = [] := by
    rcases hhead with rfl | ⟨front, rfl⟩
    · rfl
    · simp
  rw [base, List.reverse_append, List.takeWhile_append_of_pos hall, hhead', List.append_nil,
    List.reverse_reverse]

/-- Every path is a directory part and its last component. -/
theorem exists_head_append_base (path : Text) :
    ∃ head, IsHead head ∧ slash ∉ base path ∧ path = head ++ base path := by
  let rest := path.reverse.dropWhile (· ≠ slash)
  have hpath : path = rest.reverse ++ base path := by
    rw [base, ← List.reverse_append, List.takeWhile_append_dropWhile, List.reverse_reverse]
  refine ⟨rest.reverse, ?_, ?_, hpath⟩
  · cases hrest : rest with
    | nil => exact Or.inl rfl
    | cons c others =>
        have hstop := List.head?_dropWhile_not (fun c => decide (c ≠ slash)) path.reverse
        rw [show path.reverse.dropWhile (fun c => decide (c ≠ slash)) = c :: others from hrest]
          at hstop
        have hc : c = slash := by simpa using hstop
        exact Or.inr ⟨others.reverse, by rw [List.reverse_cons, hc]⟩
  · intro hmem
    have hback := List.all_eq_true.mp List.all_takeWhile slash (List.mem_reverse.mp hmem)
    simp at hback

/-- The extension is a matter of the last component. -/
theorem splitExtension_append {head name : Text} (hhead : IsHead head) (hslash : slash ∉ name) :
    splitExtension (head ++ name) =
      (head ++ (splitExtension name).1, (splitExtension name).2) := by
  have hbase : base name = name := base_append (Or.inl rfl) hslash
  unfold splitExtension
  dsimp only
  rw [base_append hhead hslash, hbase]
  split_ifs with hcut
  · rw [Bool.and_eq_true, decide_eq_true_eq] at hcut
    have hsize : (head ++ name).length -
          (name.reverse.takeWhile (· ≠ CodePoint.ofChar '.')).reverse.length - 1 =
        head.length + (name.length -
          (name.reverse.takeWhile (· ≠ CodePoint.ofChar '.')).reverse.length - 1) := by
      rw [List.length_append]
      omega
    rw [hsize, List.take_length_add_append, List.drop_length_add_append]
  · rfl

theorem slash_not_mem_splitExtension {name : Text} (hslash : slash ∉ name) :
    slash ∉ (splitExtension name).1 := by
  unfold splitExtension
  dsimp only
  split_ifs
  · exact fun hmem => hslash (List.mem_of_mem_take hmem)
  · exact hslash

end MessageKeys.PathName
