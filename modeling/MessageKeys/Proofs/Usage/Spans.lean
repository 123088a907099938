import MessageKeys.Proofs.Usage.Checks
import MessageKeys.Proofs.Usage.Sessions

/-!
# Where usages are

No check of the resolver fails on sound files, whatever the shape of their trees, and every place
that it reports is one of a loaded file (`Resolver.resolve_passes_checks`).

Each reported place is the place of a node of the project: of the first argument of a call through a
translator, of the call itself if it has none, or of the first argument of a hook call
(`Resolver.exists_node_of_mem_spans`).  Its range is that of the node, and lies in the file
(`within_span`).  Its line and column are those that the parser gave to the node.  If the parser
counts right (`SourceUnit.Placed`), the line counts the line feeds in front of the node, and the
column the bytes after the last of them (`counted_span`).
-/

namespace MessageKeys

open Syntax Cursor

/-- The parser counts right: every node of a file starts at the point that the bytes in front of it
make. -/
def Syntax.SourceUnit.Placed (unit : SourceUnit) : Prop :=
  ∀ label ∈ unit.root.labels, label.point = .after (unit.source.toList.take label.start)

/-- A span is a range of a file. -/
structure SourceSpan.Within (span : SourceSpan) (unit : SourceUnit) : Prop where
  path : span.path = unit.path
  ordered : span.start ≤ span.stop
  inside : span.stop ≤ unit.source.size

/-- A span has the right line and column in a file: the bytes in front of it are whole lines and the
beginning of the line that it starts on. -/
structure SourceSpan.Counted (span : SourceSpan) (unit : SourceUnit) : Prop where
  line : span.line = 1 + (unit.source.toList.take span.start).count Point.lineFeed
  column : ∃ lines here, unit.source.toList.take span.start = lines ++ here ∧
    (lines = [] ∨ lines.getLast? = some Point.lineFeed) ∧ Point.lineFeed ∉ here ∧
    span.column = 1 + here.length

/-- All places in a trace. -/
def Trace.spans (trace : Trace) : List SourceSpan :=
  trace.usages.map Usage.span ++ trace.dynamicUsages.map DynamicUsage.span

/-! ## The place of a node -/

/-- A list falls into the items up to the last mark and those after it. -/
theorem exists_split_takeWhile_reverse {α : Type} [DecidableEq α] (mark : α) (items : List α) :
    ∃ front back, items = front ++ back ∧ (front = [] ∨ front.getLast? = some mark) ∧ mark ∉ back ∧
      (items.reverse.takeWhile fun item => decide (item ≠ mark)).length = back.length := by
  refine ⟨(items.reverse.dropWhile fun item => decide (item ≠ mark)).reverse,
    (items.reverse.takeWhile fun item => decide (item ≠ mark)).reverse, ?_, ?_, ?_, ?_⟩
  · rw [← List.reverse_append, List.takeWhile_append_dropWhile, List.reverse_reverse]
  · have hhead := List.head?_dropWhile_not (fun item => decide (item ≠ mark)) items.reverse
    cases hrest : items.reverse.dropWhile fun item => decide (item ≠ mark) with
    | nil => exact Or.inl rfl
    | cons first rest =>
        rw [hrest] at hhead
        right
        simpa using hhead
  · intro hmem
    have hne := List.all_eq_true.mp List.all_takeWhile mark (List.mem_reverse.mp hmem)
    simp at hne
  · rw [List.length_reverse]

theorem within_span {c : Cursor} (h : c.Sound) : c.span.Within c.unit := by
  obtain ⟨hordered, hinside⟩ := h.unit.ordered c.label h.label_mem
  exact ⟨rfl, hordered, hinside⟩

theorem counted_span {c : Cursor} (h : c.Sound) (hplaced : c.unit.Placed) :
    c.span.Counted c.unit := by
  have hpoint := hplaced c.label h.label_mem
  constructor
  · change c.label.point.row + 1 = 1 + (c.unit.source.toList.take c.label.start).count _
    rw [hpoint, Nat.add_comm]
    rfl
  · obtain ⟨lines, here, hsplit, hlines, hhere, hlength⟩ :=
      exists_split_takeWhile_reverse Point.lineFeed (c.unit.source.toList.take c.label.start)
    refine ⟨lines, here, hsplit, hlines, hhere, ?_⟩
    change c.label.point.column + 1 = 1 + here.length
    rw [hpoint, ← hlength, Nat.add_comm]
    rfl

/-! ## The places that are reported -/

namespace Resolver

variable {r : Resolver}

theorem exists_node_of_keySpan {call : Cursor} (h : r.project.Holds call) :
    ∃ c, r.project.Holds c ∧ c.span = call.keySpan := by
  unfold keySpan
  cases hargument : call.argumentNodes.head? with
  | none => exact ⟨call, h, rfl⟩
  | some argument =>
      have hmem := List.mem_of_mem_head? hargument
      exact ⟨argument, Among.beneath h (beneath_of_mem_argumentNodes hmem), rfl⟩

/-- A step reports places of nodes of the project only. -/
theorem Step.of_mem_spans (hproject : r.project.Coherent) {before after : Trace}
    (h : r.Step before after) {span : SourceSpan} (hspan : span ∈ after.spans) :
    span ∈ before.spans ∨ ∃ c, r.project.Holds c ∧ c.span = span := by
  cases h with
  | visit => exact Or.inl hspan
  | scan => exact Or.inl hspan
  | @call space call hcalled =>
      obtain ⟨c, hc, hkey⟩ := exists_node_of_keySpan (hcalled.holds hproject).1
      have hcases : span ∈ before.spans ∨ span = call.keySpan := by
        simp only [Trace.spans, Trace.usages_recordCall, Trace.dynamicUsages_recordCall,
          List.map_append, List.mem_append, List.map_map] at hspan ⊢
        rcases hspan with (hspan | hspan) | hspan | hspan
        · exact Or.inl (Or.inl hspan)
        · exact Or.inr (List.mem_singleton.mp hspan)
        · exact Or.inl (Or.inr hspan)
        · obtain ⟨_, hmem, rfl⟩ := List.mem_map.mp hspan
          rw [List.mem_singleton.mp (List.mem_filter.mp hmem).1]
          exact Or.inr rfl
      rcases hcases with hspan | rfl
      · exact Or.inl hspan
      · exact Or.inr ⟨c, hc, hkey⟩
  | @dynamicHook call argument hcall hspace =>
      have hbeneath := beneath_of_mem_argumentNodes (mem_argumentNodes_of_hookSpace hspace)
      simp only [Trace.spans, Trace.recordHook, List.map_append, List.mem_append] at hspan ⊢
      rcases hspan with hspan | hspan | hspan
      · exact Or.inl (Or.inl hspan)
      · exact Or.inl (Or.inr hspan)
      · rw [List.mem_singleton.mp hspan]
        exact Or.inr ⟨argument, Among.beneath hcall.holds hbeneath, rfl⟩

theorem exists_node_of_mem_spans (hproject : r.project.Coherent) {trace : Trace} {span : SourceSpan}
    (hspan : span ∈ (r.resolve trace).spans) :
    span ∈ trace.spans ∨ ∃ c, r.project.Holds c ∧ c.span = span := by
  refine (r.run_resolve trace).invariant
    (P := fun after => ∀ span ∈ after.spans, span ∈ trace.spans ∨
      ∃ c, r.project.Holds c ∧ c.span = span) ?_ (fun _ h => Or.inl h) span hspan
  intro before after hstep hbefore span hspan
  rcases hstep.of_mem_spans hproject hspan with hspan | hnode
  · exact hbefore span hspan
  · exact Or.inr hnode

/-- Whatever the shape of the trees, no check fails when a project of sound files is resolved, and
every place that is reported is a range of one of its files.  It has the right line and column if
the parser counts right. -/
theorem resolve_passes_checks (root : Option Text) (units : List SourceUnit) (config : HookConfig)
    (hsound : ∀ unit ∈ (Project.ofUnits root units).units, unit.Sound) (trace : Trace) :
    let r : Resolver := ⟨Project.ofUnits root units, config⟩
    Checked.resolve r trace = .ok (r.resolve trace) ∧
      ∀ span ∈ (r.resolve trace).spans, span ∈ trace.spans ∨
        ∃ unit ∈ r.project.units, span.Within unit ∧ (unit.Placed → span.Counted unit) := by
  intro r
  have hproject : r.project.Sound := ⟨Project.coherent_ofUnits root units, hsound⟩
  refine ⟨Checked.resolve_eq hproject trace, fun span hspan => ?_⟩
  rcases exists_node_of_mem_spans hproject.coherent hspan with hspan | ⟨c, hc, rfl⟩
  · exact Or.inl hspan
  · have hc' := hproject.of_holds hc
    exact Or.inr ⟨c.unit, hc.1, within_span hc', counted_span hc'⟩

/-- The file `!`, `useTranslations()("\x41");` on two lines, with a node for the error on the first.
The string literal ends at `stop`. -/
def escapedKey (stop : ℕ) : SourceUnit :=
  let node (kind : Kind) (start stop : Nat) (field : Option Field) (children : List Node) : Node :=
    .mk ⟨kind, true, false, start, stop,
      if start < 2 then ⟨0, start⟩ else ⟨1, start - 2⟩, field⟩ children
  { path := "a.ts"
    source := "!\nuseTranslations()(\"\\x41\");".toUTF8.data
    root := node .program 0 28 none
      [node .error 0 1 none [],
        node (.other "expression_statement") 2 28 none
          [node .callExpression 2 27 none
            [node .callExpression 2 19 (some .function)
              [node .identifier 2 17 (some .function) [],
                node .arguments 17 19 (some .arguments) []],
              node .arguments 19 27 (some .arguments)
                [node .string 20 stop none [node .escapeSequence 21 25 none []]]]]] }

theorem sound_escapedKey : (escapedKey 26).Sound where
  ordered := by decide +kernel
  lexical := by
    intro label hlabel hkind
    have hplace : ∀ label ∈ (escapedKey 26).root.labels, label.kind = .escapeSequence →
        label.start = 21 ∧ label.stop = 25 := by decide +kernel
    obtain ⟨hstart, hstop⟩ := hplace label hlabel hkind
    have htext : (escapedKey 26).textAt 21 25 =
        Text.ofString "\\x" ++ Spelling.digitText [⟨4, false⟩, ⟨1, false⟩] := by decide +kernel
    rw [hstart, hstop, htext]
    exact .byte _ _

/-- A key with an escape sequence, after a line that cannot be parsed. -/
theorem resolve_passes_checks_escapedKey :
    let r : Resolver := ⟨Project.ofUnits none [escapedKey 26], { requireImport := false }⟩
    let place : SourceSpan := ⟨20, 26, 2, 19, "a.ts"⟩
    (∀ unit ∈ r.project.units, unit.Sound) ∧ (r.resolve {}).spans = [place] ∧
      (Checked.resolve r {}).map Trace.usages = .ok [⟨some "A", none, place⟩] ∧
      (escapedKey 26).Placed ∧ place.Within (escapedKey 26) ∧ place.Counted (escapedKey 26) := by
  intro r place
  have hunits : r.project.units = [escapedKey 26] := by decide +kernel
  have hsound : ∀ unit ∈ r.project.units, unit.Sound := by
    rw [hunits]
    simpa using sound_escapedKey
  have hspans : (r.resolve {}).spans = [place] := by decide +kernel
  have husages : (r.resolve {}).usages = [⟨some "A", none, place⟩] := by decide +kernel
  obtain ⟨hchecked, hplaces⟩ :=
    resolve_passes_checks none [escapedKey 26] { requireImport := false } hsound {}
  have hplaced : (escapedKey 26).Placed := by
    unfold SourceUnit.Placed
    decide +kernel
  refine ⟨hsound, hspans, ?_, hplaced, ?_⟩
  · rw [hchecked, ← husages]
    rfl
  · have hplace : place ∈ (r.resolve {}).spans := hspans ▸ List.mem_singleton_self place
    rcases hplaces place hplace with hnone | ⟨unit, hunit, hwithin, hcounted⟩
    · exact absurd hnone List.not_mem_nil
    · rw [hunits] at hunit
      obtain rfl := List.mem_singleton.mp hunit
      exact ⟨hwithin, hcounted hplaced⟩

/-- A literal that ends before it begins makes no span. -/
example :
    (Checked.resolve ⟨Project.ofUnits none [escapedKey 19], { requireImport := false }⟩ {}).map
        Trace.usages = .error (.noSpan (.stopBeforeStart 19 20)) := by
  decide +kernel

end Resolver

end MessageKeys
