import Mathlib.Data.List.Perm.Basic
import Mathlib.Data.Prod.Lex
import MessageKeys.Lint.Run
import MessageKeys.Proofs.Lint.MissingKeys

/-!
# The order of the rules

The rules of a configuration run one after the other with one cache, and their findings are put in
one list that is sorted by place and code.  The order in which the configuration names the rules
does not show in the list (`lintUnit_order`):

* What a rule finds does not depend on which other rules ran before it (`Rule.check_after`), so the
  list before sorting is made of one part for each entry (`lintLevels_eq_ok_iff`), in the order of
  the entries.
* The code of a finding tells its rule (`Rule.code_of_check`).  Findings with one place and one code
  come from one part, and so stand in the order of discovery whatever the order of the parts
  (`filter_flatten_of_perm`).
* A sorted list is determined by what it holds for each place and code, in order
  (`eq_of_sorted_of_filter_eq`), and sorting keeps that (`filter_mergeSort`).
-/

namespace MessageKeys

open Syntax

/-! ## Stable sorting -/

section Sorting

variable {α β : Type} [LinearOrder β] {key : α → β}

theorem trans_of_le_iff {le : α → α → Bool} (hle : ∀ a b, le a b = true ↔ key a ≤ key b) :
    ∀ a b c, le a b = true → le b c = true → le a c = true := by
  simp only [hle]
  exact fun _ _ _ => le_trans

theorem total_of_le_iff {le : α → α → Bool} (hle : ∀ a b, le a b = true ↔ key a ≤ key b) :
    ∀ a b, (le a b || le b a) = true := by
  simp only [Bool.or_eq_true, hle]
  exact fun a b => le_total (key a) (key b)

theorem pairwise_mergeSort {le : α → α → Bool} (hle : ∀ a b, le a b = true ↔ key a ≤ key b)
    (items : List α) : (items.mergeSort le).Pairwise fun a b => key a ≤ key b :=
  (List.pairwise_mergeSort (trans_of_le_iff hle) (total_of_le_iff hle) items).imp (hle _ _).mp

/-- Sorting by a key keeps the order of the items with one key. -/
theorem filter_mergeSort {le : α → α → Bool} (hle : ∀ a b, le a b = true ↔ key a ≤ key b)
    (items : List α) (k : β) :
    (items.mergeSort le).filter (fun a => decide (key a = k)) =
      items.filter fun a => decide (key a = k) := by
  have hties : (items.filter fun a => decide (key a = k)).Pairwise fun a b => le a b = true := by
    refine List.pairwise_of_forall_mem_list fun a ha b hb => (hle a b).mpr ?_
    have hkeys := (of_decide_eq_true (List.mem_filter.mp ha).2).trans
      (of_decide_eq_true (List.mem_filter.mp hb).2).symm
    exact hkeys.le
  -- the items with the key are a sorted part of the list, so they are a part of the sorted list
  have hsublist := (List.sublist_mergeSort (trans_of_le_iff hle) (total_of_le_iff hle) hties
    List.filter_sublist).filter fun a => decide (key a = k)
  rw [List.filter_filter] at hsublist
  simp only [Bool.and_self] at hsublist
  refine (hsublist.eq_of_length ?_).symm
  exact ((List.mergeSort_perm items le).filter _).length_eq.symm

theorem mem_iff_of_filter_eq {xs ys : List α}
    (h : ∀ k, xs.filter (fun a => decide (key a = k)) = ys.filter fun a => decide (key a = k))
    (a : α) : a ∈ xs ↔ a ∈ ys := by
  have hfilter := congrArg (a ∈ ·) (h (key a))
  simpa using hfilter

theorem key_le_of_mem {a b : α} {xs : List α} (hxs : (a :: xs).Pairwise fun a b => key a ≤ key b)
    (hb : b ∈ a :: xs) : key a ≤ key b := by
  rcases List.mem_cons.mp hb with rfl | hb
  · exact le_refl _
  · exact List.rel_of_pairwise_cons hxs hb

/-- Lists that are sorted by a key and hold the same items in the same order for each key are
equal. -/
theorem eq_of_sorted_of_filter_eq {xs ys : List α} (hxs : xs.Pairwise fun a b => key a ≤ key b)
    (hys : ys.Pairwise fun a b => key a ≤ key b)
    (h : ∀ k, xs.filter (fun a => decide (key a = k)) = ys.filter fun a => decide (key a = k)) :
    xs = ys := by
  have hmem := mem_iff_of_filter_eq h
  induction xs generalizing ys with
  | nil =>
      cases ys with
      | nil => rfl
      | cons y ys => exact absurd ((hmem y).mpr List.mem_cons_self) List.not_mem_nil
  | cons x xs ih =>
      cases ys with
      | nil => exact absurd ((hmem x).mp List.mem_cons_self) List.not_mem_nil
      | cons y ys =>
          -- both heads have the least key, and each is the first item with it
          have hkey : key y = key x := le_antisymm
            (key_le_of_mem hys ((hmem x).mp List.mem_cons_self))
            (key_le_of_mem hxs ((hmem y).mpr List.mem_cons_self))
          have hfirst := h (key x)
          rw [List.filter_cons_of_pos (by simp), List.filter_cons_of_pos (by simp [hkey])] at hfirst
          obtain ⟨rfl, -⟩ := List.cons.inj hfirst
          have hrest : ∀ k, xs.filter (fun a => decide (key a = k)) =
              ys.filter fun a => decide (key a = k) := by
            intro k
            have hk := h k
            by_cases hx : key x = k
            · rw [List.filter_cons_of_pos (by simp [hx]),
                List.filter_cons_of_pos (by simp [hx])] at hk
              exact (List.cons.inj hk).2
            · rwa [List.filter_cons_of_neg (by simp [hx]),
                List.filter_cons_of_neg (by simp [hx])] at hk
          rw [ih hxs.of_cons hys.of_cons hrest (mem_iff_of_filter_eq hrest)]

omit [LinearOrder β] in
/-- Items of one sort that come from one part stand in one order, whatever the order of the
parts. -/
theorem filter_flatten_of_perm {p : α → Bool} {parts others : List (List α)}
    (hperm : parts.Perm others)
    (hapart : parts.Pairwise fun part other => part.filter p = [] ∨ other.filter p = []) :
    parts.flatten.filter p = others.flatten.filter p := by
  induction hperm with
  | nil => rfl
  | cons part _ ih =>
      rw [List.flatten_cons, List.flatten_cons, List.filter_append, List.filter_append,
        ih hapart.of_cons]
  | swap part other rest =>
      simp only [List.flatten_cons, List.filter_append]
      rcases List.rel_of_pairwise_cons hapart List.mem_cons_self with hnone | hnone <;> simp [hnone]
  | trans hfirst _ ih ih' =>
      have hsymm : ∀ {part other : List α}, part.filter p = [] ∨ other.filter p = [] →
          other.filter p = [] ∨ part.filter p = [] := fun h => h.symm
      rw [ih hapart, ih' ((hfirst.pairwise_iff hsymm).mp hapart)]

end Sorting

/-! ## The rank of a finding -/

/-- Where a diagnostic stands in a file; one without a place stands before all others. -/
def Diagnostic.place (d : Diagnostic) : ℤ :=
  match d.span with
  | some span => span.start
  | none => -1

/-- What diagnostics are sorted by: the place, then the number of the code. -/
def Diagnostic.rank (d : Diagnostic) : ℤ ×ₗ ℕ :=
  toLex (d.place, d.code.number)

theorem Diagnostic.precedes_iff (a b : Diagnostic) : a.precedes b = true ↔ a.rank ≤ b.rank := by
  have h : a.precedes b = (decide (a.place < b.place) ||
      (a.place == b.place && decide (a.code.number ≤ b.code.number))) := rfl
  rw [h, rank, rank, Prod.Lex.toLex_le_toLex, Bool.or_eq_true, Bool.and_eq_true,
    decide_eq_true_eq, decide_eq_true_eq, beq_iff_eq]

theorem DiagnosticCode.number_injective {code other : DiagnosticCode}
    (h : code.number = other.number) : code = other := by
  revert h
  cases code <;> cases other <;> decide

theorem Diagnostic.code_eq_of_rank_eq {a b : Diagnostic} (h : a.rank = b.rank) : a.code = b.code :=
  DiagnosticCode.number_injective (congrArg (fun rank => (ofLex rank).2) h)

namespace Rule

variable {fs : FileSystem} {config : LintConfig} {trace : Trace} {state : LintState}

/-! ## Rules do not disturb each other -/

theorem name_of_ofName? {name : Text} {rule : Rule} (h : ofName? name = some rule) :
    rule.name = name := by
  simpa using List.find?_some h

/-- The rule about dynamic usages looks at no document. -/
theorem check_noDynamicKeys [Json.Limits] (options : Json) (other : LintState) :
    check .noDynamicKeys fs config options trace state =
      ((check .noDynamicKeys fs config options trace other).1, state) := by
  simp only [check]
  split <;> rfl

/-- What a rule finds is the same after another rule as before it. -/
theorem check_after [Json.Limits] {rule other : Rule} (hne : other ≠ rule) (given options : Json) :
    (other.check fs config options trace (rule.check fs config given trace state).2).1 =
      (other.check fs config options trace state).1 := by
  cases other with
  | noDynamicKeys => rw [check_noDynamicKeys options state]
  | noMissingKeys =>
      cases rule with
      | noMissingKeys => exact absurd rfl hne
      | noDynamicKeys => rw [check_noDynamicKeys given state]

/-- The code of a finding tells the rule that made it. -/
theorem code_of_check [Json.Limits] {rule : Rule} {options : Json} {found : List Diagnostic}
    (h : (rule.check fs config options trace state).1 = .ok found) {d : Diagnostic}
    (hd : d ∈ found) : d.code = .missingKey ↔ rule = .noMissingKeys := by
  cases rule with
  | noDynamicKeys =>
      simp only [check] at h
      split at h
      · contradiction
      · rw [← Except.ok.inj h] at hd
        obtain ⟨usage, _, hfinding⟩ := List.mem_filterMap.mp hd
        unfold dynamicDiagnostic? at hfinding
        split at hfinding
        · simp [← Option.some.inj hfinding, Diagnostic.dynamicKey]
        · simp [← Option.some.inj hfinding, Diagnostic.dynamicNamespace]
        · contradiction
  | noMissingKeys =>
      obtain ⟨given, _, hchecked⟩ := check_eq_ok_iff.mp h
      unfold checkMissing at hchecked
      split at hchecked
      · contradiction
      · dsimp only at hchecked
        split at hchecked
        · rw [← Except.ok.inj hchecked] at hd
          exact absurd hd List.not_mem_nil
        · split at hchecked
          · rw [← Except.ok.inj hchecked] at hd
            obtain ⟨usage, _, rfl⟩ := List.mem_map.mp hd
            simp [Diagnostic.missingKey]
          · contradiction

end Rule

/-! ## One part for each entry -/

/-- The options that a configuration gives to the rule with a name. -/
def LintConfig.optionsOf (config : LintConfig) (name : Text) : Json :=
  (config.options.bind (Assoc.get? name)).getD .null

/-- What an entry of a configuration adds to the list: nothing if its rule is off, else what the
rule finds when it runs by itself, with the severity of the level. -/
inductive Contributes [Json.Limits] (fs : FileSystem) (config : LintConfig) (trace : Trace)
    (state : LintState) :
    Text × Json → List Diagnostic → Prop
  | off {name : Text} {level : Json} {rule : Rule} (hrule : Rule.ofName? name = some rule)
      (hlevel : RuleLevel.ofJson name level = .ok .off) :
      Contributes fs config trace state (name, level) []
  | report {name : Text} {level : Json} {rule : Rule} {severity : Severity}
      {found : List Diagnostic} (hrule : Rule.ofName? name = some rule)
      (hlevel : RuleLevel.ofJson name level = .ok (.report severity))
      (hcheck : (rule.check fs config (config.optionsOf name) trace state).1 = .ok found) :
      Contributes fs config trace state (name, level) (found.map fun d => { d with severity })

variable {fs : FileSystem} {config : LintConfig} {trace : Trace} {state : LintState}

theorem Contributes.congr_state [Json.Limits] {other : LintState} {entry : Text × Json}
    {part : List Diagnostic}
    (hsame : ∀ rule, Rule.ofName? entry.1 = some rule →
      (rule.check fs config (config.optionsOf entry.1) trace state).1 =
        (rule.check fs config (config.optionsOf entry.1) trace other).1)
    (h : Contributes fs config trace state entry part) :
    Contributes fs config trace other entry part := by
  cases h with
  | off hrule hlevel => exact .off hrule hlevel
  | report hrule hlevel hcheck => exact .report hrule hlevel ((hsame _ hrule).symm.trans hcheck)

/-- After a rule the entries of the others contribute what they do before it. -/
theorem forall₂_contributes_after [Json.Limits] {rule : Rule} (given : Json)
    {levels : List (Text × Json)}
    {parts : List (List Diagnostic)} (hnames : ∀ entry ∈ levels, entry.1 ≠ rule.name) :
    List.Forall₂ (Contributes fs config trace (rule.check fs config given trace state).2) levels
        parts ↔
      List.Forall₂ (Contributes fs config trace state) levels parts := by
  have hsame : ∀ entry : Text × Json, entry.1 ≠ rule.name → ∀ other,
      Rule.ofName? entry.1 = some other →
      (other.check fs config (config.optionsOf entry.1) trace
          (rule.check fs config given trace state).2).1 =
        (other.check fs config (config.optionsOf entry.1) trace state).1 := by
    intro entry hentry other hother
    refine Rule.check_after ?_ given _
    rintro rfl
    exact hentry (Rule.name_of_ofName? hother).symm
  constructor
  · intro h
    have hboth := (List.forall₂_and_left levels parts).mpr ⟨hnames, h⟩
    refine hboth.imp fun entry part hentry => ?_
    exact hentry.2.congr_state (hsame entry hentry.1)
  · intro h
    have hboth := (List.forall₂_and_left levels parts).mpr ⟨hnames, h⟩
    refine hboth.imp fun entry part hentry => ?_
    exact hentry.2.congr_state fun other hother => (hsame entry hentry.1 other hother).symm

/-- The list before sorting is made of the parts of the entries, in order. -/
theorem lintLevels_eq_ok_iff [Json.Limits] {levels : List (Text × Json)}
    (hnames : (Assoc.names levels).Nodup) {found : List Diagnostic} :
    (lintLevels fs config trace levels state).1 = .ok found ↔
      ∃ parts, List.Forall₂ (Contributes fs config trace state) levels parts ∧
        found = parts.flatten := by
  induction levels generalizing state found with
  | nil => simp [lintLevels, eq_comm]
  | cons entry rest ih =>
      obtain ⟨name, level⟩ := entry
      obtain ⟨hname, hrest⟩ := List.nodup_cons.mp hnames
      have hothers : ∀ {rule : Rule}, Rule.ofName? name = some rule →
          ∀ entry ∈ rest, entry.1 ≠ rule.name := by
        intro rule hrule entry hentry heq
        rw [Rule.name_of_ofName? hrule] at heq
        exact hname (List.mem_map.mpr ⟨entry, hentry, heq⟩)
      constructor
      · intro h
        unfold lintLevels at h
        split at h
        · contradiction
        · rename_i rule hrule
          split at h
          · contradiction
          · rename_i hlevel
            obtain ⟨parts, hparts, rfl⟩ := (ih hrest).mp h
            exact ⟨[] :: parts, .cons (.off hrule hlevel) hparts, rfl⟩
          · rename_i severity hlevel
            dsimp only at h
            split at h
            · contradiction
            · rename_i own next hcheck
              split at h
              · contradiction
              · rename_i more last hmore
                have hrun : (lintLevels fs config trace rest next).1 = .ok more :=
                  congrArg Prod.fst hmore
                obtain ⟨parts, hparts, rfl⟩ := (ih hrest).mp hrun
                have hnext : next =
                    (rule.check fs config (config.optionsOf name) trace state).2 :=
                  (congrArg Prod.snd hcheck).symm
                rw [hnext] at hparts
                refine ⟨_ :: parts, .cons (.report hrule hlevel (congrArg Prod.fst hcheck))
                  ((forall₂_contributes_after _ (hothers hrule)).mp hparts), ?_⟩
                exact (Except.ok.inj h).symm
      · rintro ⟨_, hparts, rfl⟩
        cases hparts with
        | cons hentry hparts =>
            unfold lintLevels
            cases hentry with
            | off hrule hlevel =>
                simp only [hrule, hlevel, List.flatten_cons, List.nil_append]
                exact (ih hrest).mpr ⟨_, hparts, rfl⟩
            | @report _ _ rule severity own hrule hlevel hcheck =>
                have hafter := (ih hrest).mpr ⟨_, (forall₂_contributes_after
                  (config.optionsOf name) (hothers hrule)).mpr hparts, rfl⟩
                simp only [hrule, hlevel]
                rcases hrun : rule.check fs config (config.optionsOf name) trace state with
                  ⟨answer, next⟩
                rw [hrun] at hcheck hafter
                unfold LintConfig.optionsOf at hrun
                obtain rfl : answer = .ok own := hcheck
                rcases hmore : lintLevels fs config trace rest next with ⟨more, last⟩
                rw [hmore] at hafter
                dsimp only at hafter
                simp only [hrun, hmore, hafter, List.flatten_cons]

/-! ## One rank, one part -/

theorem Contributes.exists_rule [Json.Limits] {entry : Text × Json} {part : List Diagnostic}
    (h : Contributes fs config trace state entry part) :
    ∃ rule : Rule, rule.name = entry.1 ∧
      ∀ d ∈ part, (d.code = .missingKey ↔ rule = .noMissingKeys) := by
  cases h with
  | off hrule => exact ⟨_, Rule.name_of_ofName? hrule, by simp⟩
  | report hrule _ hcheck =>
      refine ⟨_, Rule.name_of_ofName? hrule, fun d hd => ?_⟩
      obtain ⟨finding, hfinding, rfl⟩ := List.mem_map.mp hd
      have hcode := Rule.code_of_check hcheck hfinding
      exact hcode

/-- Findings of one rank come from one entry. -/
theorem Contributes.name_eq [Json.Limits] {entry other : Text × Json}
    {part others : List Diagnostic} (h : Contributes fs config trace state entry part)
    (hother : Contributes fs config trace state other others) {a b : Diagnostic} (ha : a ∈ part)
    (hb : b ∈ others) (hrank : a.rank = b.rank) : entry.1 = other.1 := by
  obtain ⟨rule, hname, hcodes⟩ := h.exists_rule
  obtain ⟨rule', hname', hcodes'⟩ := hother.exists_rule
  have hiff : rule = .noMissingKeys ↔ rule' = .noMissingKeys := by
    rw [← hcodes a ha, ← hcodes' b hb, Diagnostic.code_eq_of_rank_eq hrank]
  have hrule : rule = rule' := by
    cases rule <;> cases rule' <;> simp_all
  rw [← hname, ← hname', hrule]

/-- At most one part holds findings of a rank. -/
theorem pairwise_apart [Json.Limits] {levels : List (Text × Json)}
    (hnames : (Assoc.names levels).Nodup) {parts : List (List Diagnostic)}
    (hparts : List.Forall₂ (Contributes fs config trace state) levels parts) (rank : ℤ ×ₗ ℕ) :
    parts.Pairwise fun part other =>
      part.filter (fun d => decide (d.rank = rank)) = [] ∨
        other.filter (fun d => decide (d.rank = rank)) = [] := by
  induction hparts with
  | nil => exact .nil
  | @cons entry part rest others hentry hrest ih =>
      obtain ⟨hname, hnames⟩ := List.nodup_cons.mp hnames
      refine .cons (fun other hother => ?_) (ih hnames)
      obtain ⟨i, hi, rfl⟩ := List.getElem_of_mem hother
      have hlt : i < rest.length := by
        rw [hrest.length_eq]
        exact hi
      have hcontributes := hrest.get hlt hi
      by_contra hnone
      obtain ⟨hsome, hsome'⟩ := not_or.mp hnone
      obtain ⟨a, ha⟩ := List.exists_mem_of_ne_nil _ hsome
      obtain ⟨b, hb⟩ := List.exists_mem_of_ne_nil _ hsome'
      obtain ⟨ha, hrank⟩ := List.mem_filter.mp ha
      obtain ⟨hb, hrank'⟩ := List.mem_filter.mp hb
      have heq := hentry.name_eq hcontributes ha hb
        ((of_decide_eq_true hrank).trans (of_decide_eq_true hrank').symm)
      exact hname (List.mem_map.mpr ⟨_, List.get_mem _ _, heq.symm⟩)

/-! ## The sorted list -/

/-- What an entry contributes does not depend on the other entries. -/
theorem Contributes.with_levels [Json.Limits] (levels : List (Text × Json)) {entry : Text × Json}
    {part : List Diagnostic} (h : Contributes fs config trace state entry part) :
    Contributes fs { config with levels } trace state entry part := by
  cases h with
  | off hrule hlevel => exact .off hrule hlevel
  | @report _ _ rule _ _ hrule hlevel hcheck =>
      refine .report hrule hlevel ?_
      cases rule <;> exact hcheck

theorem lintUnit_eq_ok_iff [Json.Limits] {unit : SourceUnit} {found : List Diagnostic} :
    (lintUnit fs config unit state).1 = .ok found ↔
      ∃ unsorted,
        (lintLevels fs config (singleFileTrace unit) config.levels state).1 = .ok unsorted ∧
        found = unsorted.mergeSort Diagnostic.precedes := by
  unfold lintUnit
  rcases lintLevels fs config (singleFileTrace unit) config.levels state with
    ⟨answer | answer, next⟩
  · simp
  · simp [eq_comm]

/-- The findings in a file do not depend on the order in which a configuration names the rules.
They are the parts of its entries, sorted by place and code, where findings with one place and one
code keep the order of discovery. -/
theorem lintUnit_order [Json.Limits] {unit : SourceUnit}
    (hnames : (Assoc.names config.levels).Nodup)
    {found : List Diagnostic} (h : (lintUnit fs config unit state).1 = .ok found) :
    (∀ levels, levels.Perm config.levels →
      (lintUnit fs { config with levels } unit state).1 = .ok found) ∧
    ∃ parts, List.Forall₂ (Contributes fs config (singleFileTrace unit) state) config.levels parts ∧
      found.Perm parts.flatten ∧
      found.Pairwise (fun a b => a.rank ≤ b.rank) ∧
      ∀ rank, found.filter (fun d => decide (d.rank = rank)) =
        parts.flatten.filter fun d => decide (d.rank = rank) := by
  obtain ⟨unsorted, hunsorted, rfl⟩ := lintUnit_eq_ok_iff.mp h
  obtain ⟨parts, hparts, rfl⟩ := (lintLevels_eq_ok_iff hnames).mp hunsorted
  constructor
  · intro levels hperm
    obtain ⟨others, hothers, hpermuted⟩ := List.perm_comp_forall₂ hperm hparts
    have hlevels : (Assoc.names levels).Nodup := (hperm.map Prod.fst).nodup_iff.mpr hnames
    have hrun := (lintLevels_eq_ok_iff hlevels).mpr
      ⟨others, hothers.imp fun entry part => Contributes.with_levels levels, rfl⟩
    refine lintUnit_eq_ok_iff.mpr ⟨_, hrun, ?_⟩
    apply eq_of_sorted_of_filter_eq (pairwise_mergeSort Diagnostic.precedes_iff _)
      (pairwise_mergeSort Diagnostic.precedes_iff _)
    intro rank
    rw [filter_mergeSort Diagnostic.precedes_iff, filter_mergeSort Diagnostic.precedes_iff]
    exact (filter_flatten_of_perm hpermuted (pairwise_apart hlevels hothers rank)).symm
  · exact ⟨parts, hparts, List.mergeSort_perm _ _,
      pairwise_mergeSort Diagnostic.precedes_iff _, filter_mergeSort Diagnostic.precedes_iff _⟩

/-- The file `useTranslations()(k);useTranslations()("m");`. -/
def dynamicThenMissing : SourceUnit :=
  let node (kind : Kind) (start stop : Nat) (field : Option Field) (children : List Node) : Node :=
    .mk ⟨kind, true, false, start, stop, ⟨0, start⟩, field⟩ children
  let usage (start length : Nat) (key : Node) := node (.other "expression_statement") start
    (start + length + 20) none
    [node .callExpression start (start + length + 19) none
      [node .callExpression start (start + 17) (some .function)
        [node .identifier start (start + 15) (some .function) [],
          node .arguments (start + 15) (start + 17) (some .arguments) []],
        node .arguments (start + 17) (start + length + 19) (some .arguments) [key]]]
  { path := "a.ts"
    source := "useTranslations()(k);useTranslations()(\"m\");".toUTF8.data
    root := node .program 0 44 none
      [usage 0 1 (node .identifier 18 19 none []),
        usage 21 3 (node .string 39 42 none [node .stringFragment 40 41 none []])] }

section

open scoped Usual

/-- The dynamic usage stands before the missing key also if its rule comes last. -/
theorem lintUnit_order_dynamicThenMissing :
    let files := CacheRun.oneDocument (Rule.oneKey 0x6b) 0
    let levels := [(Rule.noDynamicKeys.name, Json.str "warn"),
      (Rule.noMissingKeys.name, .str "error")]
    let config : LintConfig :=
      { directory := Path.ofAbsolute [], levels,
        settings := some [("messagesDir", .str ".")] }
    let found := [{ Diagnostic.dynamicKey none (some ⟨18, 19, 1, 19, "a.ts"⟩) with
        severity := .warning }, Diagnostic.missingKey "m" (some ⟨39, 42, 1, 40, "a.ts"⟩)]
    (lintUnit files config dynamicThenMissing {}).1 = .ok found ∧
      (lintUnit files { config with levels := levels.reverse } dynamicThenMissing {}).1 =
        .ok found := by
  intro files levels config found
  have hunsorted : (lintLevels files config (singleFileTrace dynamicThenMissing) levels {}).1 =
      .ok found := by
    decide +kernel
  have hfound : (lintUnit files config dynamicThenMissing {}).1 = .ok found :=
    lintUnit_eq_ok_iff.mpr ⟨found, hunsorted, (List.mergeSort_of_pairwise (by decide +kernel)).symm⟩
  have horder := lintUnit_order (by decide +kernel) hfound
  exact ⟨hfound, horder.1 levels.reverse levels.reverse_perm⟩

end

end MessageKeys
