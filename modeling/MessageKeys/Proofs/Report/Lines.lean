import MessageKeys.Proofs.Json.OneLine
import MessageKeys.Proofs.Text.Pieces
import MessageKeys.Report.Format

/-!
# Diagnostics on lines of their own

Diagnostics that are shown as JSON take one line each, whatever their texts hold, and each line is
an object that holds the diagnostic (`splitOn_formatAll`).  `Formatter.Shows` says which members
the object has:

* the code and its number, the message and the severity, always;
* the path, the line, the column and the two ends of the place, if there is a place;
* the key, the namespace, the document and the hint, each if it is there and not empty.

A number with more digits than the reader accepts can be written but not read, so reading a line
asks that the place has none.
-/

namespace MessageKeys

theorem Numeral.length_decimal_le {n k : ℕ} (hk : 0 < k) (h : n < 10 ^ k) :
    (Numeral.decimal n).length ≤ k := by
  rcases Nat.eq_zero_or_pos n with rfl | hn
  · rw [Numeral.decimal, if_pos (by norm_num)]
    exact hk
  · obtain ⟨j, hj, hlow, -⟩ := Numeral.length_decimal_spec hn
    have hlt := (Nat.pow_lt_pow_iff_right (by norm_num)).mp (lt_of_le_of_lt hlow h)
    omega

/-- The numbers of a place. -/
def SourceSpan.numbers (span : SourceSpan) : List ℕ :=
  [span.line, span.column, span.start, span.stop]

/-- No number of the diagnostic's place has more digits than the reader accepts. -/
def Diagnostic.Countable [Json.Limits] (d : Diagnostic) : Prop :=
  ∀ span ∈ d.span, ∀ n ∈ span.numbers, (Numeral.decimal n).length ≤ Json.Limits.digits

namespace Formatter

/-- How a text appears: as it is, or as its beginning and three points. -/
inductive Shortened (f : Formatter) (text : Text) : Text → Prop
  | whole (h : f.sanitize = false ∨ (text.length : ℤ) ≤ f.maxLength) : Shortened f text text
  | cut (hsanitize : f.sanitize = true) (hlong : f.maxLength < text.length) :
      Shortened f text (text.take f.maxLength.toNat ++ Text.ofString "...")

/-- The members of the object that holds a diagnostic. -/
inductive Shows (f : Formatter) (d : Diagnostic) : Text → Json → Prop
  | code : Shows f d "code" (.str d.code.name)
  | number : Shows f d "code_value" (.int d.code.number)
  | message {text : Text} (h : f.Shortened d.message text) : Shows f d "message" (.str text)
  | severity : Shows f d "severity" (.str d.severity.name)
  | path {span : SourceSpan} (h : d.span = some span) : Shows f d "path" (.str span.path)
  | line {span : SourceSpan} (h : d.span = some span) : Shows f d "line" (.int span.line)
  | column {span : SourceSpan} (h : d.span = some span) : Shows f d "column" (.int span.column)
  | start {span : SourceSpan} (h : d.span = some span) : Shows f d "start" (.int span.start)
  | stop {span : SourceSpan} (h : d.span = some span) : Shows f d "end" (.int span.stop)
  | key {key : Text} (h : d.key = some key) (hne : key ≠ []) : Shows f d "key" (.str key)
  | space {space : Text} (h : d.space = some space) (hne : space ≠ []) :
      Shows f d "namespace" (.str space)
  | document {document : Text} (h : d.document = some document) (hne : document ≠ []) :
      Shows f d "document" (.str document)
  | hint {hint text : Text} (h : d.hint = some hint) (hne : hint ≠ [])
      (htext : f.Shortened hint text) : Shows f d "hint" (.str text)

variable {f : Formatter}

/-! ## The members -/

theorem shortened_iff (hlength : 0 ≤ f.maxLength) {text shown : Text} :
    f.Shortened text shown ↔ shown = f.cut text := by
  unfold cut
  split_ifs with hcut
  · obtain ⟨hsanitize, hlong⟩ := Bool.and_eq_true_iff.mp hcut
    have hlong := of_decide_eq_true hlong
    rw [Text.upTo, if_pos hlength]
    constructor
    · intro h
      cases h with
      | whole h =>
          rcases h with h | h
          · rw [h] at hsanitize
            contradiction
          · omega
      | cut => rfl
    · rintro rfl
      exact .cut hsanitize hlong
  · constructor
    · intro h
      cases h with
      | whole => rfl
      | cut hsanitize hlong => simp [hsanitize, hlong] at hcut
    · rintro rfl
      refine .whole ?_
      rw [Bool.and_eq_true_iff, decide_eq_true_eq, not_and] at hcut
      cases hsanitize : f.sanitize with
      | false => exact Or.inl rfl
      | true => exact Or.inr (not_lt.mp (hcut hsanitize))

theorem filled?_eq_some_iff {field : Option Text} {text : Text} :
    Text.filled? field = some text ↔ field = some text ∧ text ≠ [] := by
  simp [Text.filled?]

/-- The names that members may have, in order. -/
def memberNames : List Text :=
  ["code", "code_value", "message", "severity", "path", "line", "column", "start", "end", "key",
    "namespace", "document", "hint"]

theorem names_members_sublist (d : Diagnostic) :
    (Assoc.names (f.members d)).Sublist memberNames := by
  have hfilled : ∀ (name : Text) (field : Option Text),
      ((field.map fun text => (name, Json.str text)).toList.map Prod.fst).Sublist [name] := by
    intro name field
    cases field <;> simp
  have hnames : memberNames =
      [Text.ofString "code", "code_value", "message", "severity"] ++
        [Text.ofString "path", "line", "column", "start", "end"] ++ [Text.ofString "key"] ++
        [Text.ofString "namespace"] ++ [Text.ofString "document"] ++ [Text.ofString "hint"] := rfl
  rw [hnames]
  simp only [Assoc.names, members, List.map_append]
  refine (((((List.Sublist.refl _).append ?_).append (hfilled _ _)).append (hfilled _ _)).append
    (hfilled _ _)).append (hfilled _ _)
  cases d.span with
  | none => exact List.nil_sublist _
  | some span => exact List.Sublist.refl _

theorem nodup_names_members (d : Diagnostic) : (Assoc.names (f.members d)).Nodup := by
  have hnames : memberNames.Nodup := by decide
  exact hnames.sublist (names_members_sublist d)

/-- The object of a diagnostic has exactly the members that show it. -/
theorem mem_members_iff (hlength : 0 ≤ f.maxLength) {d : Diagnostic} {name : Text} {value : Json} :
    (name, value) ∈ f.members d ↔ f.Shows d name value := by
  constructor
  · intro h
    simp only [members, List.mem_append, List.mem_cons, List.not_mem_nil, or_false,
      Option.mem_toList, Option.map_eq_some_iff, Prod.mk.injEq, filled?_eq_some_iff] at h
    rcases h with ((((h | hplace) | hkey) | hspace) | hdocument) | hhint
    · rcases h with ⟨rfl, rfl⟩ | ⟨rfl, rfl⟩ | ⟨rfl, rfl⟩ | ⟨rfl, rfl⟩
      · exact .code
      · exact .number
      · exact .message ((shortened_iff hlength).mpr rfl)
      · exact .severity
    · cases hspan : d.span with
      | none => simp [hspan] at hplace
      | some span =>
          simp only [hspan, List.mem_cons, List.not_mem_nil, or_false, Prod.mk.injEq] at hplace
          rcases hplace with ⟨rfl, rfl⟩ | ⟨rfl, rfl⟩ | ⟨rfl, rfl⟩ | ⟨rfl, rfl⟩ | ⟨rfl, rfl⟩
          · exact .path hspan
          · exact .line hspan
          · exact .column hspan
          · exact .start hspan
          · exact .stop hspan
    · obtain ⟨key, ⟨hkey, hne⟩, rfl, rfl⟩ := hkey
      exact .key hkey hne
    · obtain ⟨space, ⟨hspace, hne⟩, rfl, rfl⟩ := hspace
      exact .space hspace hne
    · obtain ⟨document, ⟨hdocument, hne⟩, rfl, rfl⟩ := hdocument
      exact .document hdocument hne
    · obtain ⟨_, ⟨hint, ⟨hhint, hne⟩, rfl⟩, rfl, rfl⟩ := hhint
      exact .hint hhint hne ((shortened_iff hlength).mpr rfl)
  · intro h
    have hfilled : ∀ {field : Option Text} {text : Text}, field = some text → text ≠ [] →
        Text.filled? field = some text := fun hfield hne => filled?_eq_some_iff.mpr ⟨hfield, hne⟩
    cases h with
    | code => simp [members]
    | number => simp [members]
    | message h => simp [members, (shortened_iff hlength).mp h]
    | severity => simp [members]
    | path h => simp [members, h]
    | line h => simp [members, h]
    | column h => simp [members, h]
    | start h => simp [members, h]
    | stop h => simp [members, h]
    | key h hne => simp [members, hfilled h hne]
    | space h hne => simp [members, hfilled h hne]
    | document h hne => simp [members, hfilled h hne]
    | hint h hne htext => simp [members, hfilled h hne, (shortened_iff hlength).mp htext]

/-! ## A line -/

/-- A member is a text, the number of the code or a number of the place. -/
theorem Shows.value_cases {d : Diagnostic} {name : Text} {value : Json} (h : f.Shows d name value) :
    (∃ s, value = .str s) ∨
      ∃ n : ℕ, value = .int n ∧ (n = d.code.number ∨ ∃ span ∈ d.span, n ∈ span.numbers) := by
  cases h with
  | code => exact Or.inl ⟨_, rfl⟩
  | number => exact Or.inr ⟨_, rfl, Or.inl rfl⟩
  | message => exact Or.inl ⟨_, rfl⟩
  | severity => exact Or.inl ⟨_, rfl⟩
  | path => exact Or.inl ⟨_, rfl⟩
  | line h => exact Or.inr ⟨_, rfl, Or.inr ⟨_, h, by simp [SourceSpan.numbers]⟩⟩
  | column h => exact Or.inr ⟨_, rfl, Or.inr ⟨_, h, by simp [SourceSpan.numbers]⟩⟩
  | start h => exact Or.inr ⟨_, rfl, Or.inr ⟨_, h, by simp [SourceSpan.numbers]⟩⟩
  | stop h => exact Or.inr ⟨_, rfl, Or.inr ⟨_, h, by simp [SourceSpan.numbers]⟩⟩
  | key => exact Or.inl ⟨_, rfl⟩
  | space => exact Or.inl ⟨_, rfl⟩
  | document => exact Or.inl ⟨_, rfl⟩
  | hint => exact Or.inl ⟨_, rfl⟩

theorem newline_not_mem_of_shows {d : Diagnostic} {name : Text} {value : Json}
    (h : f.Shows d name value) : CodePoint.ofChar '\n' ∉ Json.compact value := by
  rcases h.value_cases with ⟨s, rfl⟩ | ⟨n, rfl, -⟩
  · rw [Json.compact]
    exact Json.newline_not_mem_quoted s
  · rw [Json.compact]
    exact Json.newline_not_mem_signed n

theorem readsOnLine_of_shows [Json.Limits] (room : ℕ) {d : Diagnostic}
    (hcountable : d.Countable) {name : Text} {value : Json} (h : f.Shows d name value) :
    Json.ReadsOnLine room value := by
  rcases h.value_cases with ⟨s, rfl⟩ | ⟨n, rfl, rfl | ⟨span, hspan, hn⟩⟩
  · exact Json.readsOnLine_str room s
  · have hfour : d.code.number < 10 ^ 4 := by
      cases d.code <;> decide
    have hlength := (Numeral.length_decimal_le (by decide) hfour).trans
      (le_trans (by decide) Json.Limits.le_digits)
    exact Json.readsOnLine_int room hlength
  · exact Json.readsOnLine_int room (hcountable span hspan n hn)

theorem read_compact_members [Json.Limits] (hlength : 0 ≤ f.maxLength) {d : Diagnostic}
    (hcountable : d.Countable) :
    Json.read (Json.compact (.obj (f.members d))) = .ok (.obj (f.members d)) := by
  obtain ⟨room, hroom⟩ := Nat.exists_eq_add_of_lt Json.Limits.readDepth_pos
  unfold Json.read
  rw [hroom, Nat.zero_add]
  refine Json.readWithin_compact (nodup_names_members d) fun member hmember => ?_
  exact readsOnLine_of_shows _ hcountable ((mem_members_iff hlength).mp hmember)

/-! ## All lines -/

theorem formatAll_json (hstyle : f.style = .json) (ds : List Diagnostic) :
    f.formatAll ds = .ok (Text.join [CodePoint.ofChar '\n']
      (ds.map fun d => Json.compact (.obj (f.members d)))) := by
  have hformat : f.format = fun d => pure (Json.compact (.obj (f.members d))) := by
    funext d
    unfold format
    rw [hstyle]
    rfl
  unfold formatAll separator
  rw [hformat, List.mapM_pure, hstyle]
  rfl

/-- Diagnostics shown as JSON take one line each, in order, and each line is read as an object with
exactly the members that show the diagnostic. -/
theorem splitOn_formatAll [Json.Limits] (hstyle : f.style = .json) (hlength : 0 ≤ f.maxLength)
    {ds : List Diagnostic} (hne : ds ≠ []) :
    ∃ shown, f.formatAll ds = .ok shown ∧
      List.Forall₂ (fun d line => d.Countable → ∃ members, Json.read line = .ok (.obj members) ∧
          (Assoc.names members).Nodup ∧
          ∀ name value, (name, value) ∈ members ↔ f.Shows d name value)
        ds (Text.splitOn (CodePoint.ofChar '\n') shown) := by
  refine ⟨_, formatAll_json hstyle ds, ?_⟩
  rw [Text.splitOn_join]
  · rw [List.forall₂_map_right_iff, List.forall₂_same]
    intro d _ hcountable
    exact ⟨_, read_compact_members hlength hcountable, nodup_names_members d,
      fun name value => mem_members_iff hlength⟩
  · simpa using hne
  · intro line hline
    obtain ⟨d, _, rfl⟩ := List.mem_map.mp hline
    refine Json.newline_not_mem_compact fun member hmember => ?_
    exact newline_not_mem_of_shows ((mem_members_iff hlength).mp hmember)

section

open scoped Usual

/-- A file name with a newline and a message that is cut inside its quotes still make two lines. -/
theorem splitOn_formatAll_cut :
    let f : Formatter := { style := .json, sanitize := true, maxLength := 3 }
    let d : Diagnostic :=
      { code := .missingKey, message := "a\n\"b\"", span := some ⟨0, 1, 1, 1, "a\n.ts"⟩,
        key := some [] }
    ∃ shown line other members, f.formatAll [d, d] = .ok shown ∧
      Text.splitOn (CodePoint.ofChar '\n') shown = [line, other] ∧
      Json.read line = .ok (.obj members) ∧
      (Text.ofString "message", Json.str "a\n\"...") ∈ members ∧
      (Text.ofString "path", Json.str "a\n.ts") ∈ members := by
  intro f d
  have hcountable : d.Countable := by
    rintro span ⟨⟩ n hn
    have hsmall : ∀ m ∈ [1, 1, 0, 1], m < 10 ^ 1 := by decide
    exact (Numeral.length_decimal_le (by decide) (hsmall n hn)).trans (by decide)
  have hne : [d, d] ≠ [] := by simp
  obtain ⟨shown, hshown, hlines⟩ :=
    splitOn_formatAll (show f.style = .json from rfl) (by decide) hne
  obtain ⟨line, other, hsplit⟩ := List.length_eq_two.mp hlines.length_eq.symm
  rw [hsplit] at hlines
  obtain ⟨hfirst, -⟩ := List.forall₂_cons.mp hlines
  obtain ⟨members, hread, -, hmembers⟩ := hfirst hcountable
  have hmessage : f.Shows d "message" (.str "a\n\"...") := .message (.cut rfl (by decide))
  have hpath : f.Shows d "path" (.str "a\n.ts") := @Shows.path f d ⟨0, 1, 1, 1, "a\n.ts"⟩ rfl
  exact ⟨shown, line, other, members, hshown, hsplit, hread, (hmembers _ _).mpr hmessage,
    (hmembers _ _).mpr hpath⟩

end

end Formatter

end MessageKeys
