import MessageKeys.Proofs.Syntax.Places
import MessageKeys.Proofs.Syntax.Spelling
import MessageKeys.Syntax.Scope

/-!
# Reading a tree with checks

Reading a syntax tree relies on things that no type guarantees: that a node is there because a test
before has seen it, that a list has an entry at an index, that the numbers of a node make a span,
that an escape sequence names a character.  `Checked` states the same functions with a check at
each such place; a check that fails is a `Fault`.

The functions with checks give what the functions without give, on every node of a file that is
`Sound`: the ranges of its nodes lie in the source, and its escape sequences are such as a lexer
lets through.  Nothing is asked of the shape of the tree.
-/

namespace MessageKeys

open Syntax Cursor Spelling

/-- What a step over a syntax tree can stumble over. -/
inductive Fault where
  | noNode
  | noEntry (index : Int)
  | noSpan (reason : SourceSpan.Invalid)
  | noCharacter (sequence : Text)
  deriving DecidableEq, Repr

/-! ## Sound files -/

/-- An escape sequence that a lexer lets through: a number after `x` or `u` has the right digits,
and one in braces, which can have any number of them, is below `2 ^ 31`. -/
inductive Syntax.Escape.Lexical : Text → Prop
  | plain {head : CodePoint} {tail : Text} (hbyte : head ≠ CodePoint.ofChar 'x')
      (hunicode : head ≠ CodePoint.ofChar 'u') : Lexical (CodePoint.ofChar '\\' :: head :: tail)
  | byte (first second : HexDigit) : Lexical (Text.ofString "\\x" ++ digitText [first, second])
  | quad (q : Quad) : Lexical (Text.ofString "\\u" ++ digitText q.digits)
  | braced {first : HexDigit} {rest : List HexDigit} (h : number (first :: rest) < 2 ^ 31) :
      Lexical (Text.ofString "\\u\x7b" ++ digitText (first :: rest) ++ Text.ofString "\x7d")

/-- The text of a range of a file. -/
def Syntax.SourceUnit.textAt (unit : SourceUnit) (start stop : ℕ) : Text :=
  Utf8.decodeLossy (unit.source.extract start stop).toList

/-- A file whose nodes lie in its source and whose escape sequences are well formed.  Its tree can
have any shape. -/
structure Syntax.SourceUnit.Sound (unit : SourceUnit) : Prop where
  ordered : ∀ label ∈ unit.root.labels, label.start ≤ label.stop ∧ label.stop ≤ unit.source.size
  lexical : ∀ label ∈ unit.root.labels, label.kind = .escapeSequence →
    Escape.Lexical (unit.textAt label.start label.stop)

/-- A node of a sound file. -/
structure Syntax.Cursor.Sound (c : Cursor) : Prop where
  mem : In c.unit c
  unit : c.unit.Sound

namespace Syntax.Cursor.Sound

variable {c d : Cursor}

theorem of_in {unit : SourceUnit} (hunit : unit.Sound) (h : In unit c) : c.Sound := by
  obtain rfl := h.unit_eq
  exact ⟨h, hunit⟩

theorem beneath (h : c.Sound) (hd : Beneath c d) : d.Sound :=
  of_in h.unit (h.mem.beneath hd)

theorem child? (h : c.Sound) (field : Field) : ∀ d ∈ c.child? field, d.Sound :=
  fun _ hd => of_in h.unit (h.mem.child? hd)

theorem of_mem_namedChildren (h : c.Sound) (hd : d ∈ c.namedChildren) : d.Sound :=
  of_in h.unit (h.mem.of_mem_namedChildren hd)

theorem of_mem_lineage (h : c.Sound) (hd : d ∈ c.lineage) : d.Sound :=
  of_in h.unit (h.mem.of_mem_lineage hd)

theorem label_mem (h : c.Sound) : c.label ∈ c.unit.root.labels :=
  h.mem.labels_subset (Node.label_mem_labels _)

theorem lexical (h : c.Sound) (hkind : c.kind = .escapeSequence) : Escape.Lexical c.text :=
  h.unit.lexical c.label h.label_mem hkind

end Syntax.Cursor.Sound

namespace Checked

@[simp] theorem ok_bind {α β : Type} (a : α) (f : α → Except Fault β) :
    (Except.ok a >>= f) = f a := rfl

@[simp] theorem pure_eq_ok {α : Type} (a : α) : (pure a : Except Fault α) = .ok a := rfl

theorem bind_eq_ok {α β : Type} {x : Except Fault α} {f : α → Except Fault β} {b : β} :
    (x >>= f) = .ok b ↔ ∃ a, x = .ok a ∧ f a = .ok b := by
  cases x with
  | error fault => simp [bind, Except.bind]
  | ok a => simp

/-! ## Lists -/

section

variable {α β σ : Type} {items : List α}

/-- The entry of a list at an index. -/
def entry (items : List α) (index : Int) : Except Fault α :=
  if index < 0 then .error (.noEntry index)
  else match items[index.toNat]? with
    | some item => .ok item
    | none => .error (.noEntry index)

theorem entry_natCast {index : ℕ} {item : α} (h : items[index]? = some item) :
    entry items index = .ok item := by
  rw [entry, if_neg (by omega), Int.toNat_natCast, h]

@[simp] theorem entry_cons_zero (item : α) (items : List α) :
    entry (item :: items) 0 = .ok item := rfl

/-- What a step finds at each item, put together. -/
def flatMap (f : α → Except Fault (List β)) (items : List α) : Except Fault (List β) := do
  let found ← items.mapM f
  return found.flatten

/-- What a step finds at some of the items. -/
def filterMap (f : α → Except Fault (Option β)) (items : List α) : Except Fault (List β) := do
  let found ← items.mapM f
  return found.filterMap id

/-- What a step finds first. -/
def findSome? (f : α → Except Fault (Option β)) (items : List α) : Except Fault (Option β) := do
  let found ← items.mapM f
  return found.findSome? id

theorem mapM_eq {f : α → Except Fault β} {g : α → β} (h : ∀ item ∈ items, f item = .ok (g item)) :
    items.mapM f = .ok (items.map g) := by
  induction items with
  | nil => rfl
  | cons item rest ih =>
      obtain ⟨hitem, hrest⟩ := List.forall_mem_cons.mp h
      rw [List.mapM_cons, hitem, ih hrest]
      rfl

theorem flatMap_eq {f : α → Except Fault (List β)} {g : α → List β}
    (h : ∀ item ∈ items, f item = .ok (g item)) : flatMap f items = .ok (items.flatMap g) := by
  rw [flatMap, mapM_eq h]
  rfl

theorem filterMap_eq {f : α → Except Fault (Option β)} {g : α → Option β}
    (h : ∀ item ∈ items, f item = .ok (g item)) : filterMap f items = .ok (items.filterMap g) := by
  have hmap : (items.map g).filterMap id = items.filterMap g := by
    rw [List.filterMap_map]
    rfl
  rw [filterMap, mapM_eq h, ← hmap]
  rfl

theorem findSome?_eq {f : α → Except Fault (Option β)} {g : α → Option β}
    (h : ∀ item ∈ items, f item = .ok (g item)) : findSome? f items = .ok (items.findSome? g) := by
  have hmap : (items.map g).findSome? id = items.findSome? g := by
    rw [List.findSome?_map]
    rfl
  rw [findSome?, mapM_eq h, ← hmap]
  rfl

theorem foldlM_invariant {f : σ → α → Except Fault σ} {P : σ → Prop} {before after : σ}
    (hstep : ∀ state item next, f state item = .ok next → P state → P next)
    (h : items.foldlM f before = .ok after) (hbefore : P before) : P after := by
  induction items generalizing before with
  | nil => exact Except.ok.inj h ▸ hbefore
  | cons item rest ih =>
      rw [List.foldlM_cons] at h
      obtain ⟨next, hnext, hrest⟩ := bind_eq_ok.mp h
      exact ih hrest (hstep before item next hnext hbefore)

theorem foldlM_eq {f : σ → α → Except Fault σ} {g : σ → α → σ} (state : σ)
    (h : ∀ item ∈ items, ∀ state, f state item = .ok (g state item)) :
    items.foldlM f state = .ok (items.foldl g state) := by
  induction items generalizing state with
  | nil => rfl
  | cons item rest ih =>
      obtain ⟨hitem, hrest⟩ := List.forall_mem_cons.mp h
      rw [List.foldlM_cons, hitem, List.foldl_cons, ← ih (g state item) hrest]
      rfl

end

/-! ## Nodes -/

/-- The node that is there. -/
def node : Option Cursor → Except Fault Cursor
  | some c => .ok c
  | none => .error .noNode

/-- Whether a node is there and of a kind. -/
def isA (c : Option Cursor) (p : Kind → Bool) : Bool :=
  c.any fun found => p found.kind

@[simp] theorem node_some (c : Cursor) : node (some c) = .ok c := rfl

@[simp] theorem isA_some (c : Cursor) (p : Kind → Bool) : isA (some c) p = p c.kind := rfl

@[simp] theorem isA_none (p : Kind → Bool) : isA none p = false := rfl

/-! ## Literals and names -/

/-- Whether an escape sequence cannot be decoded: its two digits are no number, or its number is
too large even to ask which character it names. -/
def undecodable (sequence : Text) : Bool :=
  match sequence.drop 1 with
  | [] => false
  | head :: tail =>
      if head = ('x' : Char) && tail.length == 2 then (Text.hexNumber? tail).isNone
      else if head = ('u' : Char) then
        let braced := tail.head?.any fun c => c.val == 0x7b
        (Text.hexNumber? (if braced then (tail.drop 1).dropLast else tail)).any (2 ^ 31 ≤ ·)
      else false

/-- The text that an escape sequence stands for. -/
def decode (sequence : Text) : Except Fault Text :=
  if undecodable sequence then .error (.noCharacter sequence) else .ok (Escape.decode sequence)

/-- The part of a string literal's value that one of its pieces contributes. -/
def pieceValue (piece : Cursor) : Except Fault Text :=
  if piece.kind = .escapeSequence then decode piece.text else .ok piece.pieceValue

/-- The value of a quoted string literal. -/
def stringValue? (c : Option Cursor) : Except Fault (Option Text) := do
  if isA c (· == .string) then
    let literal ← node c
    let pieces ← literal.namedChildren.mapM pieceValue
    return some pieces.flatten
  else return none

/-- The name that a property key or an element of a pattern gives statically. -/
def propertyName? (c : Option Cursor) : Except Fault (Option Text) :=
  match c with
  | some key => if key.kind.isNameKey then .ok (some key.text) else stringValue? (some key)
  | none => .ok none

theorem undecodable_of_lexical {sequence : Text} (h : Escape.Lexical sequence) :
    undecodable sequence = false := by
  have hopen : ∀ d : HexDigit, (d.point.val == 0x7b) = false := by
    have hall : ∀ (value : Fin 16) (capital : Bool),
        ((HexDigit.point ⟨value, capital⟩).val == 0x7b) = false := by decide
    exact fun d => hall d.value d.capital
  have hletter : CodePoint.ofChar 'u' ≠ CodePoint.ofChar 'x' := by decide
  cases h with
  | plain hbyte hunicode => simp [undecodable, hbyte, hunicode]
  | byte first second =>
      have hnumber := hexNumber?_digitText (List.cons_ne_nil first [second])
      rw [undecodable, show (Text.ofString "\\x" ++ digitText [first, second]).drop 1 =
        CodePoint.ofChar 'x' :: digitText [first, second] from rfl]
      dsimp only
      rw [if_pos (by simp [digitText]), hnumber]
      rfl
  | quad q =>
      have hnumber := hexNumber?_digitText (List.cons_ne_nil q.first [q.second, q.third, q.fourth])
      have hsmall : ¬ 2 ^ 31 ≤ q.number := by
        have hlt := q.number_lt
        omega
      have hplain : ((digitText q.digits).head?.any fun c => c.val == 0x7b) = false :=
        hopen q.first
      rw [undecodable, show (Text.ofString "\\u" ++ digitText q.digits).drop 1 =
        CodePoint.ofChar 'u' :: digitText q.digits from rfl]
      dsimp only
      rw [if_neg (by simp [hletter]), if_pos rfl, hplain, if_neg (by simp), Quad.digits, hnumber]
      exact decide_eq_false hsmall
  | @braced first rest hlt =>
      have hnumber := hexNumber?_digitText (List.cons_ne_nil first rest)
      rw [undecodable, show (Text.ofString "\\u\x7b" ++ digitText (first :: rest) ++
        Text.ofString "\x7d").drop 1 = CodePoint.ofChar 'u' :: CodePoint.ofNat 0x7b ::
          (digitText (first :: rest) ++ [CodePoint.ofNat 0x7d]) from rfl]
      dsimp only
      rw [if_neg (by simp [hletter]), if_pos rfl, if_pos (by rfl), List.drop_succ_cons,
        List.drop_zero, List.dropLast_concat, hnumber]
      exact decide_eq_false (not_le.mpr hlt)

theorem pieceValue_eq {c : Cursor} (h : c.Sound) : pieceValue c = .ok c.pieceValue := by
  unfold pieceValue
  split
  · rename_i hkind
    rw [decode, undecodable_of_lexical (h.lexical hkind), Cursor.pieceValue, hkind]
    rfl
  · rfl

theorem stringValue?_eq {c : Option Cursor} (h : ∀ d ∈ c, d.Sound) :
    stringValue? c = .ok (c.bind Cursor.stringValue?) := by
  cases c with
  | none => rfl
  | some d =>
      have hpieces : d.namedChildren.mapM pieceValue =
          .ok (d.namedChildren.map Cursor.pieceValue) :=
        mapM_eq fun piece hpiece => pieceValue_eq ((h d rfl).of_mem_namedChildren hpiece)
      unfold stringValue?
      by_cases hkind : d.kind = .string
      · have hvalue : d.stringValue? = some (d.namedChildren.flatMap Cursor.pieceValue) := by
          rw [Cursor.stringValue?, hkind]
        simp [hkind, hpieces, hvalue, List.flatMap_def]
      · have hnone : d.stringValue? = none := by
          unfold Cursor.stringValue?
          split
          · contradiction
          · rfl
        simp [hkind, hnone]

theorem stringValue?_some {c : Cursor} (h : c.Sound) :
    stringValue? (some c) = .ok c.stringValue? :=
  stringValue?_eq fun _ hd => Option.some.inj hd ▸ h

theorem propertyName?_eq {c : Option Cursor} (h : ∀ d ∈ c, d.Sound) :
    propertyName? c = .ok (c.bind Cursor.propertyName?) := by
  cases c with
  | none => rfl
  | some d =>
      rw [Option.bind_some, propertyName?, Cursor.propertyName?]
      split
      · rfl
      · exact stringValue?_some (h d rfl)

/-! ## Imports and exports -/

/-- The names bound by one named import. -/
def specifierBinding? (module : Text) (specifier : Cursor) :
    Except Fault (Option ImportBinding) := do
  let name := specifier.child? .name
  let imported ← propertyName? name
  match (specifier.child? .localName).or name, imported with
  | some bound, some imported => return some ⟨bound.text, imported, module, bound⟩
  | _, _ => return none

/-- The names bound by one part of an import clause. -/
def partBindings (module : Text) (part : Cursor) : Except Fault (List ImportBinding) :=
  if part.kind = .namedImports then
    filterMap (specifierBinding? module)
      (part.namedChildren.filter fun specifier => decide (specifier.kind = .importSpecifier))
  else .ok (part.partBindings module)

/-- The names bound by an import statement. -/
def statementBindings (statement : Cursor) : Except Fault (List ImportBinding) := do
  match ← stringValue? (statement.child? .source) with
  | some module =>
      flatMap (fun clause => flatMap (partBindings module) clause.namedChildren)
        (statement.namedChildren.filter fun clause => decide (clause.kind = .importClause))
  | none => return []

/-- One name of an export clause with the local name that provides it. -/
def specifierExport? (specifier : Cursor) : Except Fault (Option (Text × Cursor)) := do
  let name := specifier.child? .name
  let exported ← propertyName? ((specifier.child? .localName).or name)
  match name, exported with
  | some provider, some exported => return some (exported, provider)
  | _, _ => return none

/-- The names that an export statement exports, with their providers. -/
def statementExports (statement : Cursor) : Except Fault (List (Text × Cursor)) :=
  if (statement.child? .source).isSome then .ok []
  else if statement.children.any fun child => decide (child.kind = .defaultKeyword) then
    match (statement.child? .declaration).or (statement.child? .value) with
    | some target => .ok [(defaultExport, target)]
    | none => .ok []
  else match statement.child? .declaration with
    | some declaration => .ok (declaration.declaredNames.map fun name => (name.text, name))
    | none =>
        flatMap
          (fun clause => filterMap specifierExport?
            (clause.namedChildren.filter fun part => decide (part.kind = .exportSpecifier)))
          (statement.namedChildren.filter fun clause => decide (clause.kind = .exportClause))

/-- The names bound by the import statements at the top of a file. -/
def imports (unit : SourceUnit) : Except Fault (List ImportBinding) :=
  flatMap statementBindings
    (unit.top.namedChildren.filter fun statement => decide (statement.kind = .importStatement))

/-- The names that a file exports, each with its first provider. -/
def exports (unit : SourceUnit) : Except Fault (List (Text × Cursor)) := do
  let found ← flatMap statementExports
    (unit.top.namedChildren.filter fun statement => decide (statement.kind = .exportStatement))
  return found.foldl (fun table entry => Assoc.insertNew entry.1 entry.2 table) []

/-- The names that a node declares, each with its scope. -/
def declarations (c : Cursor) : Except Fault (List Declaration) :=
  if c.kind = .importStatement then do
    let bindings ← statementBindings c
    return Declaration.all (some c.unit.top) (bindings.map ImportBinding.node)
  else .ok c.declarations

/-- The index of a file. -/
def scopeIndex (unit : SourceUnit) : Except Fault ScopeIndex := do
  let found ← flatMap declarations unit.cursors
  return ⟨unit, found⟩

variable {c : Cursor}

theorem sound_or {first second : Option Cursor} (hfirst : ∀ d ∈ first, d.Sound)
    (hsecond : ∀ d ∈ second, d.Sound) : ∀ d ∈ first.or second, d.Sound := by
  cases first with
  | none => simpa using hsecond
  | some d => simpa using hfirst

theorem specifierBinding?_eq (module : Text) (h : c.Sound) :
    specifierBinding? module c = .ok (c.specifierBinding? module) := by
  unfold specifierBinding? Cursor.specifierBinding?
  dsimp only
  rw [propertyName?_eq (h.child? _)]
  cases (c.child? .localName).or (c.child? .name) <;>
    cases (c.child? .name).bind Cursor.propertyName? <;> rfl

theorem partBindings_eq (module : Text) (h : c.Sound) :
    partBindings module c = .ok (c.partBindings module) := by
  unfold partBindings
  split
  · rename_i hkind
    rw [Cursor.partBindings, hkind]
    refine filterMap_eq fun specifier hspecifier => ?_
    exact specifierBinding?_eq module (h.of_mem_namedChildren (List.mem_filter.mp hspecifier).1)
  · rfl

theorem statementBindings_eq (h : c.Sound) : statementBindings c = .ok c.statementBindings := by
  unfold statementBindings Cursor.statementBindings
  rw [stringValue?_eq (h.child? _)]
  cases (c.child? .source).bind Cursor.stringValue? with
  | none => rfl
  | some module =>
      refine flatMap_eq fun clause hclause => flatMap_eq fun part hpart => ?_
      have hclause := h.of_mem_namedChildren (List.mem_filter.mp hclause).1
      exact partBindings_eq module (hclause.of_mem_namedChildren hpart)

theorem specifierExport?_eq (h : c.Sound) : specifierExport? c = .ok c.specifierExport? := by
  unfold specifierExport? Cursor.specifierExport?
  dsimp only
  rw [propertyName?_eq (sound_or (h.child? _) (h.child? _))]
  cases ((c.child? .localName).or (c.child? .name)).bind Cursor.propertyName? <;>
    cases c.child? .name <;> rfl

theorem statementExports_eq (h : c.Sound) : statementExports c = .ok c.statementExports := by
  unfold statementExports Cursor.statementExports
  split
  · rfl
  · split
    · cases (c.child? .declaration).or (c.child? .value) <;> rfl
    · cases c.child? .declaration with
      | some declaration => rfl
      | none =>
          refine flatMap_eq fun clause hclause => filterMap_eq fun part hpart => ?_
          have hclause := h.of_mem_namedChildren (List.mem_filter.mp hclause).1
          exact specifierExport?_eq (hclause.of_mem_namedChildren (List.mem_filter.mp hpart).1)

theorem declarations_eq (h : c.Sound) : declarations c = .ok c.declarations := by
  unfold declarations
  split
  · rename_i hkind
    rw [statementBindings_eq h, Cursor.declarations, hkind]
    rfl
  · rfl

variable {unit : SourceUnit}

theorem imports_eq (h : unit.Sound) : imports unit = .ok unit.imports := by
  refine flatMap_eq fun statement hstatement => statementBindings_eq ?_
  exact .of_in h (In.top.of_mem_namedChildren (List.mem_filter.mp hstatement).1)

theorem exports_eq (h : unit.Sound) : exports unit = .ok unit.exports := by
  unfold exports
  rw [flatMap_eq fun statement hstatement => statementExports_eq
    (.of_in h (In.top.of_mem_namedChildren (List.mem_filter.mp hstatement).1))]
  rfl

theorem scopeIndex_eq (h : unit.Sound) : scopeIndex unit = .ok (ScopeIndex.ofUnit unit) := by
  unfold scopeIndex
  rw [flatMap_eq fun c hc => declarations_eq (.of_in h (.of_mem_cursors hc))]
  rfl

end Checked

end MessageKeys
