import Mathlib.Tactic.SplitIfs
import MessageKeys.Text.Basic

/-!
# The pieces of a text

Cutting a text at a separator and putting pieces together again.  A piece has no separator in it
(`not_mem_of_mem_splitOn`), and pieces that have none are found again when each is written with a
separator after it (`splitOn_flatMap`) or with one between them (`splitOn_join`).
-/

namespace MessageKeys.Text

theorem splitOn_of_not_mem {separator : CodePoint} {t : Text} (h : separator ∉ t) :
    splitOn separator t = [t] := by
  induction t with
  | nil => rfl
  | cons c rest ih =>
      obtain ⟨hc, hrest⟩ := not_or.mp (mt List.mem_cons.mpr h)
      rw [splitOn, if_neg (Ne.symm hc), ih hrest]

theorem splitOn_append (separator : CodePoint) (front back : Text) :
    splitOn separator (front ++ separator :: back)
      = splitOn separator front ++ splitOn separator back := by
  induction front with
  | nil =>
      rw [List.nil_append, splitOn.eq_def separator (separator :: back)]
      dsimp only
      rw [if_pos rfl]
      rfl
  | cons c rest ih =>
      rw [List.cons_append, splitOn, splitOn, ih]
      split_ifs
      · rfl
      · cases hpieces : splitOn separator rest with
        | nil => exact absurd hpieces (splitOn_ne_nil separator rest)
        | cons piece pieces => rfl

theorem not_mem_of_mem_splitOn {separator : CodePoint} {t piece : Text}
    (h : piece ∈ splitOn separator t) : separator ∉ piece := by
  induction t generalizing piece with
  | nil =>
      rw [List.mem_singleton.mp h]
      exact List.not_mem_nil
  | cons c rest ih =>
      unfold splitOn at h
      split_ifs at h with hc
      · rcases List.mem_cons.mp h with rfl | h
        · exact List.not_mem_nil
        · exact ih h
      · cases hpieces : splitOn separator rest with
        | nil => exact absurd hpieces (splitOn_ne_nil separator rest)
        | cons first others =>
            rw [hpieces] at h ih
            rcases List.mem_cons.mp h with rfl | h
            · exact fun hmem => (List.mem_cons.mp hmem).elim (fun heq => hc heq.symm)
                (ih List.mem_cons_self)
            · exact ih (List.mem_cons_of_mem _ h)

/-- Pieces with a separator after each are found again, before the pieces of what follows. -/
theorem splitOn_flatMap {separator : CodePoint} {pieces : List Text} (rest : Text)
    (h : ∀ piece ∈ pieces, separator ∉ piece) :
    splitOn separator (pieces.flatMap (· ++ [separator]) ++ rest) =
      pieces ++ splitOn separator rest := by
  induction pieces with
  | nil => rfl
  | cons piece others ih =>
      obtain ⟨hpiece, hothers⟩ := List.forall_mem_cons.mp h
      rw [List.flatMap_cons, List.append_assoc, List.append_assoc, List.singleton_append,
        splitOn_append, splitOn_of_not_mem hpiece, ih hothers]
      rfl

theorem join_concat (separator : CodePoint) (pieces : List Text) (last : Text) :
    join [separator] (pieces ++ [last]) = pieces.flatMap (· ++ [separator]) ++ last := by
  unfold join
  induction pieces with
  | nil => exact List.intercalate_singleton
  | cons piece others ih =>
      cases others with
      | nil => simp [List.intercalate_cons_cons]
      | cons next others =>
          rw [List.cons_append, List.cons_append, List.intercalate_cons_cons, ← List.cons_append,
            ih]
          simp

/-- Pieces that are put together with a separator between them are found again. -/
theorem splitOn_join {separator : CodePoint} {pieces : List Text} (hne : pieces ≠ [])
    (h : ∀ piece ∈ pieces, separator ∉ piece) :
    splitOn separator (join [separator] pieces) = pieces := by
  obtain ⟨front, last, rfl⟩ := (List.eq_nil_or_concat pieces).resolve_left hne
  rw [List.concat_eq_append] at h ⊢
  obtain ⟨hfront, hlast⟩ := List.forall_mem_append.mp h
  rw [join_concat, splitOn_flatMap last hfront,
    splitOn_of_not_mem (hlast last List.mem_cons_self)]

end MessageKeys.Text
