import MessageKeys.Proofs.Syntax.References

/-!
# The nearest scope and the first declaration

The index of a file is one list.  What a walk over the file meets is entered there in the order of
the walk, but often for a scope far from the node that was met: a `var` goes to the function around
it, an import to the top of the file.  This file says what an identifier means without the list.

* `SourceUnit.Declared`: some node of the file declares the name in the scope.
* `SourceUnit.Nearest`: the scope is around the identifier, no scope between them declares its
  name, and the binding is the first declaration of the name there.

Look-up gives a binding if and only if it is the nearest one, and nothing if and only if no scope
around the identifier declares its name (`declaration_eq_nearest`).  Scopes are compared by their
identities, so identities have to tell nodes apart.
-/

namespace MessageKeys.Syntax

open Cursor

namespace SourceUnit

/-- Some node of the file declares the name in the scope. -/
def Declared (unit : SourceUnit) (scope : Cursor) (name : Text) : Prop :=
  ∃ c ∈ unit.cursors, ∃ binding, c.Declares scope binding ∧ binding.text = name

/-- The identity of a scope is that of no other named node of the file. -/
def TellsApart (unit : SourceUnit) (scope : Cursor) : Prop :=
  ∀ other ∈ unit.cursors, other.key = scope.key → other = scope

/-- The binding is what the name of `n` means at `n`, by its declaration in the scope `owner`. -/
structure Nearest (unit : SourceUnit) (n owner binding : Cursor) : Prop where
  text : binding.text = n.text
  around : owner ∈ n.lineage
  isScope : owner.kind.isScope = true
  unshadowed : ∀ scope ∈ n.lineage, scope.kind.isScope = true → owner ∈ scope.lineage →
    ¬ unit.Declared scope n.text
  first : ∃ front back,
    (ScopeIndex.ofUnit unit).declarations = front ++ Declaration.of owner binding :: back ∧
      ∀ d ∈ front, d.scope = owner → d.name ≠ n.text

end SourceUnit

namespace ScopeIndex

variable {unit : SourceUnit} {scope binding n : Cursor} {name : Text}

/-! ## Look-up in one scope -/

theorem declared_iff :
    unit.Declared scope name ↔
      ∃ d ∈ (ofUnit unit).declarations, d.scope = scope ∧ d.name = name := by
  constructor
  · rintro ⟨c, hc, binding, hdeclares, hname⟩
    have hmem := mem_declarations_ofUnit.mpr ⟨c, hc, hdeclares.mem_declarations⟩
    exact ⟨_, hmem, rfl, hname⟩
  · rintro ⟨d, hd, rfl, rfl⟩
    obtain ⟨c, hc, hdc⟩ := mem_declarations_ofUnit.mp hd
    obtain ⟨hdeclares, htext⟩ := of_mem_declarations hdc
    exact ⟨c, hc, d.binding, hdeclares, htext.symm⟩

theorem declaration_eq_of {d : Declaration} (hd : d ∈ (ofUnit unit).declarations) :
    d = Declaration.of d.scope d.binding := by
  have hname := name_eq_text hd
  obtain ⟨scope, binding, name⟩ := d
  rw [Declaration.of, ← hname]

/-- The test of a look-up, which compares identities, singles out the declarations of the name in
the scope. -/
theorem lookup_test_iff_of_apart (hapart : unit.TellsApart scope) {d : Declaration}
    (hd : d ∈ (ofUnit unit).declarations) :
    (decide (d.scope.key = scope.key) && decide (d.name = name)) = true ↔
      d.scope = scope ∧ d.name = name := by
  simp only [Bool.and_eq_true, decide_eq_true_eq]
  refine and_congr_left fun _ => ⟨fun hkey => ?_, fun heq => by rw [heq]⟩
  exact hapart d.scope (scope_mem_cursors hd) hkey

theorem lookup?_eq_none_iff_of_apart (hapart : unit.TellsApart scope) :
    (ofUnit unit).lookup? scope name = none ↔ ¬ unit.Declared scope name := by
  rw [lookup?, Option.map_eq_none_iff, List.find?_eq_none, declared_iff]
  constructor
  · rintro hnone ⟨d, hd, hmatch⟩
    exact hnone d hd ((lookup_test_iff_of_apart hapart hd).mpr hmatch)
  · intro hnot d hd htest
    exact hnot ⟨d, hd, (lookup_test_iff_of_apart hapart hd).mp htest⟩

theorem tellsApart_of_nodup (hdistinct : (unit.cursors.map Cursor.key).Nodup)
    (hscope : scope ∈ unit.cursors) : unit.TellsApart scope :=
  fun _ hother hkey => cursor_eq_of_key_eq hdistinct hother hscope hkey

theorem lookup_test_iff (hdistinct : (unit.cursors.map Cursor.key).Nodup)
    (hscope : scope ∈ unit.cursors) {d : Declaration} (hd : d ∈ (ofUnit unit).declarations) :
    (decide (d.scope.key = scope.key) && decide (d.name = name)) = true ↔
      d.scope = scope ∧ d.name = name :=
  lookup_test_iff_of_apart (tellsApart_of_nodup hdistinct hscope) hd

theorem lookup?_eq_none_iff (hdistinct : (unit.cursors.map Cursor.key).Nodup)
    (hscope : scope ∈ unit.cursors) :
    (ofUnit unit).lookup? scope name = none ↔ ¬ unit.Declared scope name :=
  lookup?_eq_none_iff_of_apart (tellsApart_of_nodup hdistinct hscope)

theorem lookup?_eq_some_iff_first (hdistinct : (unit.cursors.map Cursor.key).Nodup)
    (hscope : scope ∈ unit.cursors) :
    (ofUnit unit).lookup? scope name = some binding ↔ binding.text = name ∧ ∃ front back,
      (ofUnit unit).declarations = front ++ Declaration.of scope binding :: back ∧
        ∀ d ∈ front, d.scope = scope → d.name ≠ name := by
  rw [lookup?, Option.map_eq_some_iff]
  constructor
  · rintro ⟨d, hfound, rfl⟩
    obtain ⟨htest, front, back, hsplit, hfront⟩ := List.find?_eq_some_iff_append.mp hfound
    have hd : d ∈ (ofUnit unit).declarations := List.mem_of_find?_eq_some hfound
    obtain ⟨rfl, rfl⟩ := (lookup_test_iff hdistinct hscope hd).mp htest
    refine ⟨(name_eq_text hd).symm, front, back, ?_, fun e he hsame hname => ?_⟩
    · rw [← declaration_eq_of hd]
      exact hsplit
    · have hmem : e ∈ (ofUnit unit).declarations := by simp [hsplit, he]
      have hmissed := hfront e he
      rw [(lookup_test_iff hdistinct hscope hmem).mpr ⟨hsame, hname⟩] at hmissed
      simp at hmissed
  · rintro ⟨rfl, front, back, hsplit, hfront⟩
    refine ⟨Declaration.of scope binding, ?_, rfl⟩
    refine List.find?_eq_some_iff_append.mpr ⟨by simp [Declaration.of], front, back, hsplit, ?_⟩
    intro e he
    have hmem : e ∈ (ofUnit unit).declarations := by simp [hsplit, he]
    rw [Bool.not_eq_true', ← Bool.not_eq_true, lookup_test_iff hdistinct hscope hmem]
    rintro ⟨hsame, hname⟩
    exact hfront e he hsame hname

/-! ## Look-up through the scopes around a node -/

theorem mem_scopes : scope ∈ n.scopes ↔ scope ∈ n.lineage ∧ scope.kind.isScope = true := by
  rw [scopes, ancestors_eq_filter, List.mem_filter]

theorem mem_cursors_of_mem_scopes (hn : n ∈ unit.cursors) (h : scope ∈ n.scopes) :
    scope ∈ unit.cursors :=
  mem_cursors_of_mem_lineage hn (mem_scopes.mp h).1

/-- The scopes that come before one of the scopes around a node are those between the two. -/
theorem mem_front_iff {owner : Cursor} {front back : List Cursor}
    (h : n.scopes = front ++ owner :: back) :
    scope ∈ front ↔ scope ∈ n.scopes ∧ owner ∈ scope.lineage := by
  have hpairwise : n.scopes.Pairwise fun near far => far ∈ near.lineage := by
    rw [scopes, ancestors_eq_filter]
    exact (pairwise_lineage n).filter _
  rw [h, List.pairwise_append, List.pairwise_cons] at hpairwise
  obtain ⟨_, ⟨hback, _⟩, hfront⟩ := hpairwise
  constructor
  · intro hscope
    exact ⟨by simp [h, hscope], hfront scope hscope owner List.mem_cons_self⟩
  · rintro ⟨hscope, hbetween⟩
    have hdepth := depth_lt_of_mem_lineage hbetween
    rw [h, List.mem_append, List.mem_cons] at hscope
    rcases hscope with hscope | rfl | hscope
    · exact hscope
    · omega
    · have hfar := depth_lt_of_mem_lineage (hback scope hscope)
      omega

theorem declarationOf?_of_free (hfree : (ofUnit unit).isBinding n = false) :
    (ofUnit unit).declarationOf? n =
      n.scopes.findSome? fun scope => (ofUnit unit).lookup? scope n.text := by
  rw [declarationOf?, hfree]
  rfl

theorem declarationOf?_eq_none_iff (hdistinct : (unit.cursors.map Cursor.key).Nodup)
    (hn : n ∈ unit.cursors) (hfree : (ofUnit unit).isBinding n = false) :
    (ofUnit unit).declarationOf? n = none ↔
      ∀ scope ∈ n.lineage, scope.kind.isScope = true → ¬ unit.Declared scope n.text := by
  rw [declarationOf?_of_free hfree, List.findSome?_eq_none_iff]
  constructor
  · intro hnone scope hscope hkind
    have hmem := mem_scopes.mpr ⟨hscope, hkind⟩
    exact (lookup?_eq_none_iff hdistinct (mem_cursors_of_mem_scopes hn hmem)).mp (hnone scope hmem)
  · intro hnone scope hmem
    obtain ⟨hscope, hkind⟩ := mem_scopes.mp hmem
    exact (lookup?_eq_none_iff hdistinct (mem_cursors_of_mem_scopes hn hmem)).mpr
      (hnone scope hscope hkind)

theorem declarationOf?_eq_some_iff (hdistinct : (unit.cursors.map Cursor.key).Nodup)
    (hn : n ∈ unit.cursors) (hfree : (ofUnit unit).isBinding n = false) :
    (ofUnit unit).declarationOf? n = some binding ↔ ∃ owner, unit.Nearest n owner binding := by
  rw [declarationOf?_of_free hfree, List.findSome?_eq_some_iff]
  constructor
  · rintro ⟨front, owner, back, hsplit, hfound, hfront⟩
    have howner : owner ∈ n.scopes := by simp [hsplit]
    obtain ⟨htext, hfirst⟩ := (lookup?_eq_some_iff_first hdistinct
      (mem_cursors_of_mem_scopes hn howner)).mp hfound
    obtain ⟨haround, hkind⟩ := mem_scopes.mp howner
    refine ⟨owner, htext, haround, hkind, fun scope hscope hisScope hbetween => ?_, hfirst⟩
    have hmem := mem_scopes.mpr ⟨hscope, hisScope⟩
    have hnone := hfront scope ((mem_front_iff hsplit).mpr ⟨hmem, hbetween⟩)
    exact (lookup?_eq_none_iff hdistinct (mem_cursors_of_mem_scopes hn hmem)).mp hnone
  · rintro ⟨owner, hnearest⟩
    have howner := mem_scopes.mpr ⟨hnearest.around, hnearest.isScope⟩
    obtain ⟨front, back, hsplit⟩ := List.append_of_mem howner
    refine ⟨front, owner, back, hsplit, ?_, fun scope hscope => ?_⟩
    · exact (lookup?_eq_some_iff_first hdistinct (mem_cursors_of_mem_scopes hn howner)).mpr
        ⟨hnearest.text, hnearest.first⟩
    · obtain ⟨hmem, hbetween⟩ := (mem_front_iff hsplit).mp hscope
      obtain ⟨haround, hkind⟩ := mem_scopes.mp hmem
      exact (lookup?_eq_none_iff hdistinct (mem_cursors_of_mem_scopes hn hmem)).mpr
        (hnearest.unshadowed scope haround hkind hbetween)

/-- A node that is no binding means the first declaration of its text in the nearest scope around
it that has one, and nothing if no scope around it has one.  In a well-parsed file that scope is the
one which the index remembers for the binding. -/
theorem declaration_eq_nearest (unit : SourceUnit) (n : Cursor)
    (hdistinct : (unit.cursors.map Cursor.key).Nodup) (hn : n ∈ unit.cursors)
    (hfree : (ofUnit unit).isBinding n = false) :
    (∀ binding, (ofUnit unit).declarationOf? n = some binding ↔
        ∃ owner, unit.Nearest n owner binding) ∧
      ((ofUnit unit).declarationOf? n = none ↔
        ∀ scope ∈ n.lineage, scope.kind.isScope = true → ¬ unit.Declared scope n.text) ∧
      (unit.WellParsed → ∀ owner binding, unit.Nearest n owner binding →
        (ofUnit unit).owner? binding = some owner) := by
  refine ⟨fun binding => declarationOf?_eq_some_iff hdistinct hn hfree,
    declarationOf?_eq_none_iff hdistinct hn hfree, ?_⟩
  intro hparsed owner binding hnearest
  obtain ⟨front, back, hsplit, _⟩ := hnearest.first
  have hmem : Declaration.of owner binding ∈ (ofUnit unit).declarations := by simp [hsplit]
  exact owner?_eq hparsed hmem

/-- The file `let t; { t; var t; let t; }`. -/
def shadowed : SourceUnit :=
  let node (kind : Kind) (start stop : Nat) (field : Option Field) (children : List Node) : Node :=
    .mk ⟨kind, true, false, start, stop, ⟨0, start⟩, field⟩ children
  let declarator (start : Nat) : Node :=
    node .variableDeclarator start (start + 1) none
      [node .identifier start (start + 1) (some .name) []]
  { path := "t.ts"
    source := "let t; { t; var t; let t; }".toUTF8.data
    root := node .program 0 27 none
      [node .lexicalDeclaration 0 6 none [declarator 4],
        node .statementBlock 7 27 none
          [node (.other "expression_statement") 9 11 none [node .identifier 9 10 none []],
            node .variableDeclaration 12 18 none [declarator 16],
            node .lexicalDeclaration 19 25 none [declarator 23]]] }

/-- The `t` in the block is the one that the block declares after it, neither the earlier one of the
file nor the `var`, which the file owns as well. -/
theorem declaration_eq_nearest_shadowed :
    shadowed.WellParsed ∧ ∃ n ∈ shadowed.cursors, n.label.start = 9 ∧
      (ofUnit shadowed).isBinding n = false ∧ ∃ owner binding,
        shadowed.Nearest n owner binding ∧ owner.label.start = 7 ∧ binding.label.start = 23 := by
  have hparsed : shadowed.WellParsed :=
    ⟨by decide, by decide, by decide, by decide, by decide⟩
  obtain ⟨n, hn, hstart, hfree, hfound⟩ : ∃ n ∈ shadowed.cursors, n.label.start = 9 ∧
      (ofUnit shadowed).isBinding n = false ∧
        ((ofUnit shadowed).declarationOf? n).any (fun binding =>
          decide (binding.label.start = 23) &&
            ((ofUnit shadowed).owner? binding).any fun owner => decide (owner.label.start = 7)) =
          true := by
    decide
  obtain ⟨binding, hdeclared, htest⟩ := (Option.any_eq_true _ _).mp hfound
  rw [Bool.and_eq_true, decide_eq_true_eq] at htest
  obtain ⟨hsome, _, howner⟩ := declaration_eq_nearest shadowed n hparsed.distinct hn hfree
  obtain ⟨owner, hnearest⟩ := (hsome binding).mp hdeclared
  have hkept := htest.2
  rw [howner hparsed owner binding hnearest] at hkept
  exact ⟨hparsed, n, hn, hstart, hfree, owner, binding, hnearest, by simpa using hkept, htest.1⟩

end ScopeIndex

end MessageKeys.Syntax
