import MessageKeys.Proofs.Json.Limits
import MessageKeys.Proofs.Messages.Storage
import MessageKeys.Proofs.Text.Pieces

/-!
# Keys as addresses

Something stands at a path exactly if a terminal stands at the path or below it (`hasPath_iff`).
Erasing only takes terminals away, so nothing comes back to a path that was erased, and erasing the
same keys a second time finds none of them (`eraseKeys_eraseKeys`).

If no name is empty or contains the separator, the segments of a key are the names on the way to its
leaf (`segments_ofPath`).  If the names of each object are distinct, no terminal stands below
another one (`eq_of_prefix_terminals`).  With both, each key addresses its own leaf and no other
terminal (`segments_prefix_iff`): erasing some of the keys finds each of them and leaves the rest as
it was (`keys_address_leaves`), and erasing the unused ones leaves the used ones (`keys_pruned`).
-/

namespace MessageKeys

theorem KeySet.nodup (keys : KeySet) : keys.toList.Nodup := by
  refine keys.ascending.imp ?_
  rintro key _ hless rfl
  exact List.lt_irrefl key hless

namespace Document

/-! ## What stands at a path -/

theorem valueTerminals_ne_nil : ∀ value : Json, valueTerminals value ≠ []
  | .obj [] => by simp [valueTerminals]
  | .obj ((name, value) :: members) => by
      rw [valueTerminals, if_neg (by simp), memberTerminals]
      simp [valueTerminals_ne_nil value]
  | .null | .bool _ | .int _ | .real _ | .str _ | .arr _ => by simp [valueTerminals]

theorem exists_mem_branch (member : Text × Json) : ∃ terminal, terminal ∈ branch member := by
  refine List.exists_mem_of_ne_nil _ ?_
  unfold branch
  exact mt List.map_eq_nil_iff.mp (valueTerminals_ne_nil member.2)

theorem mem_terminals {document : Document} {terminal : List Text × Json} :
    terminal ∈ document.terminals ↔ ∃ member ∈ document, terminal ∈ branch member := by
  rw [terminals_eq_flatMap, List.mem_flatMap]

theorem terminals_eq_nil_iff {document : Document} : document.terminals = [] ↔ document = [] := by
  refine ⟨fun hnone => ?_, fun hnil => hnil ▸ rfl⟩
  refine List.eq_nil_iff_forall_not_mem.mpr fun member hmember => ?_
  obtain ⟨terminal, hterminal⟩ := exists_mem_branch member
  have hmem := mem_terminals.mpr ⟨member, hmember, hterminal⟩
  rw [hnone] at hmem
  exact absurd hmem List.not_mem_nil

/-- A terminal is a leaf or an empty object. -/
theorem leaf_or_empty_of_mem_valueTerminals (value : Json) : ∀ terminal ∈ valueTerminals value,
    terminal.2.members? = none ∨ terminal.2 = .obj [] := by
  induction value using Json.induction_members with
  | leaf value hleaf =>
      rw [valueTerminals_leaf hleaf]
      simp [hleaf]
  | obj members ih =>
      by_cases hmembers : members = []
      · subst hmembers
        simp [valueTerminals]
      · rw [valueTerminals_obj_of_ne_nil hmembers]
        intro terminal hterminal
        obtain ⟨member, hmember, hbranch⟩ := mem_terminals.mp hterminal
        obtain ⟨inner, hinner, rfl⟩ := List.mem_map.mp hbranch
        exact ih member hmember inner hinner

theorem leaf_or_empty_of_mem_terminals {document : Document} {terminal : List Text × Json}
    (h : terminal ∈ document.terminals) :
    terminal.2.members? = none ∨ terminal.2 = .obj [] := by
  obtain ⟨member, _, hbranch⟩ := mem_terminals.mp h
  obtain ⟨inner, hinner, rfl⟩ := List.mem_map.mp hbranch
  exact leaf_or_empty_of_mem_valueTerminals member.2 inner hinner

theorem hasPath_singleton_iff {segment : Text} {document : Document} :
    document.hasPath [segment] = true ↔
      ∃ terminal ∈ document.terminals, [segment] <+: terminal.1 := by
  rw [hasPath, List.any_eq_true]
  constructor
  · rintro ⟨member, hmember, hname⟩
    obtain ⟨terminal, hterminal⟩ := exists_mem_branch member
    obtain ⟨inner, hinner⟩ := name_of_mem_branch hterminal
    refine ⟨terminal, mem_terminals.mpr ⟨member, hmember, hterminal⟩, ?_⟩
    rw [hinner, of_decide_eq_true hname]
    exact ⟨inner, rfl⟩
  · rintro ⟨terminal, hterminal, hstarts⟩
    obtain ⟨member, hmember, hbranch⟩ := mem_terminals.mp hterminal
    obtain ⟨inner, hinner⟩ := name_of_mem_branch hbranch
    rw [hinner] at hstarts
    exact ⟨member, hmember, decide_eq_true (List.cons_prefix_cons.mp hstarts).1.symm⟩

/-- Something stands at a path exactly if a terminal stands there or below. -/
theorem hasPath_iff {path : List Text} (hpath : path ≠ []) {document : Document} :
    document.hasPath path = true ↔ ∃ terminal ∈ document.terminals, path <+: terminal.1 := by
  induction path generalizing document with
  | nil => exact absurd rfl hpath
  | cons segment rest ih =>
      cases rest with
      | nil => exact hasPath_singleton_iff
      | cons next rest =>
          rw [hasPath_cons]
          constructor
          · rintro ⟨members, hmember, hhas⟩
            obtain ⟨terminal, hterminal, hstarts⟩ := (ih (by simp)).mp hhas
            have hmembers : members ≠ [] := by
              rintro rfl
              exact absurd hterminal List.not_mem_nil
            refine ⟨(segment :: terminal.1, terminal.2), ?_,
              List.cons_prefix_cons.mpr ⟨rfl, hstarts⟩⟩
            refine mem_terminals.mpr ⟨_, hmember, ?_⟩
            rw [branch_obj hmembers]
            exact List.mem_map_of_mem hterminal
          · rintro ⟨terminal, hterminal, hstarts⟩
            obtain ⟨⟨name, value⟩, hmember, hbranch⟩ := mem_terminals.mp hterminal
            obtain ⟨inner, hinner, rfl⟩ := List.mem_map.mp hbranch
            obtain ⟨rfl, hrest⟩ := List.cons_prefix_cons.mp hstarts
            -- a path that goes on leads into an object with members
            cases value with
            | obj members =>
                by_cases hmembers : members = []
                · subst hmembers
                  simp [valueTerminals] at hinner
                  simp [hinner] at hrest
                · rw [valueTerminals_obj_of_ne_nil hmembers] at hinner
                  exact ⟨members, hmember, (ih (by simp)).mpr ⟨inner, hinner, hrest⟩⟩
            | null | bool _ | int _ | real _ | str _ | arr _ =>
                simp [valueTerminals] at hinner
                simp [hinner] at hrest

/-! ## Erasing keys twice -/

/-- Whether a path is not at or below the segments of one of the keys. -/
def spared (keys path : List Text) : Bool :=
  keys.all fun key => decide (¬ Key.segments key <+: path)

theorem spared_iff {keys path : List Text} :
    spared keys path = true ↔ ∀ key ∈ keys, ¬ Key.segments key <+: path := by
  simp [spared]

/-- Erasing keys takes out the terminals at or below the segments of one of them. -/
theorem terminals_eraseKeys (document : Document) (keys : List Text) :
    (document.eraseKeys keys).1.terminals =
      document.terminals.filter fun terminal => spared keys terminal.1 := by
  rw [eraseKeys_fst]
  induction keys generalizing document with
  | nil => simp [spared]
  | cons key rest ih =>
      rw [List.foldl_cons, ih, eraseKey, terminals_erasePath (segments_ne_nil key),
        List.filter_filter]
      refine List.filter_congr fun terminal _ => ?_
      rw [spared, spared, List.all_cons, Bool.and_comm, outside]

/-- In a value with distinct names no terminal stands below another one. -/
theorem eq_of_prefix_valueTerminals (value : Json) (h : value.DistinctNames) :
    ∀ first ∈ valueTerminals value, ∀ second ∈ valueTerminals value,
      first.1 <+: second.1 → first = second := by
  induction value using Json.induction_members with
  | leaf value hleaf =>
      rw [valueTerminals_leaf hleaf]
      simp
  | obj members ih =>
      by_cases hmembers : members = []
      · subst hmembers
        simp [valueTerminals]
      · rw [valueTerminals_obj_of_ne_nil hmembers]
        intro first hfirst second hsecond hstarts
        obtain ⟨⟨name, value⟩, hmember, hbranch⟩ := mem_terminals.mp hfirst
        obtain ⟨⟨other, found⟩, hother, hfound⟩ := mem_terminals.mp hsecond
        obtain ⟨inner, hinner, rfl⟩ := List.mem_map.mp hbranch
        obtain ⟨below, hbelow, rfl⟩ := List.mem_map.mp hfound
        obtain ⟨rfl, hrest⟩ := List.cons_prefix_cons.mp hstarts
        -- both stand below the one member with this name
        obtain rfl : value = found := by
          have hvalue := (Assoc.get?_eq_some_iff h.nodup).mpr hmember
          rw [(Assoc.get?_eq_some_iff h.nodup).mpr hother] at hvalue
          exact (Option.some.inj hvalue).symm
        rw [ih _ hmember (h.member hmember) inner hinner below hbelow hrest]

theorem eq_of_prefix_terminals {document : Document} (h : Json.DistinctNames (.obj document))
    {first second : List Text × Json} (hfirst : first ∈ document.terminals)
    (hsecond : second ∈ document.terminals) (hstarts : first.1 <+: second.1) : first = second := by
  have hmembers : document ≠ [] := by
    rintro rfl
    exact absurd hfirst List.not_mem_nil
  rw [← valueTerminals_obj_of_ne_nil hmembers] at hfirst hsecond
  exact eq_of_prefix_valueTerminals _ h first hfirst second hsecond hstarts

end Document

/-! ## Keys of plain names -/

/-- A name that is a segment of keys by itself: not empty and without the separator. -/
def Key.isPlain (name : Text) : Bool :=
  !name.isEmpty && !name.contains Key.separator

theorem Key.isPlain_iff {name : Text} :
    Key.isPlain name = true ↔ name ≠ [] ∧ Key.separator ∉ name := by
  simp [Key.isPlain]

theorem Key.segments_foldl_child {names : List Text} (h : ∀ name ∈ names, Key.isPlain name = true)
    {path : Text} (hpath : path ≠ []) :
    Key.segments (names.foldl Key.child path) = Key.segments path ++ names := by
  induction names generalizing path with
  | nil => rw [List.foldl_nil, List.append_nil]
  | cons name rest ih =>
      obtain ⟨hname, hrest⟩ := List.forall_mem_cons.mp h
      have hchild : Key.child path name = path ++ Key.separator :: name := by
        rw [Key.child, if_neg (by simpa using hpath)]
      rw [List.foldl_cons, hchild, ih hrest (by simp), Key.segments, Text.splitOn_append,
        Text.splitOn_of_not_mem (Key.isPlain_iff.mp hname).2, List.append_assoc,
        List.singleton_append]
      rfl

/-- The segments of a written path are its names, if these are plain. -/
theorem Key.segments_ofPath {path : List Text} (hpath : path ≠ [])
    (h : ∀ name ∈ path, Key.isPlain name = true) : Key.segments (Key.ofPath path) = path := by
  cases path with
  | nil => exact absurd rfl hpath
  | cons name rest =>
      obtain ⟨hname, hrest⟩ := List.forall_mem_cons.mp h
      obtain ⟨hne, hseparator⟩ := Key.isPlain_iff.mp hname
      rw [Key.ofPath, List.foldl_cons, show Key.child [] name = name from rfl,
        Key.segments_foldl_child hrest hne, Key.segments, Text.splitOn_of_not_mem hseparator,
        List.singleton_append]

theorem Key.foldl_child_eq_join {path : Text} (hpath : path ≠ []) (names : List Text) :
    names.foldl Key.child path = Text.join [Key.separator] (path :: names) := by
  induction names generalizing path with
  | nil => simp [Text.join, List.intercalate]
  | cons name rest ih =>
      have hchild : Key.child path name = path ++ Key.separator :: name := by
        rw [Key.child, if_neg (by simpa using hpath)]
      rw [List.foldl_cons, hchild, ih (by simp)]
      cases rest <;> simp [Text.join, List.intercalate]

/-- A path of plain names is written with the separator between them. -/
theorem Key.ofPath_eq_join {path : List Text} (h : ∀ name ∈ path, Key.isPlain name = true) :
    Key.ofPath path = Text.join [Key.separator] path := by
  cases path with
  | nil => rfl
  | cons name rest =>
      have hname := (Key.isPlain_iff.mp (h name List.mem_cons_self)).1
      exact Key.foldl_child_eq_join hname rest

namespace Document

/-- Whether every name on the way to a leaf or to an empty object is plain. -/
def plainNames (document : Document) : Bool :=
  document.terminals.all fun terminal => terminal.1.all Key.isPlain

theorem ne_nil_of_mem_leaves {document : Document} {path : List Text}
    (h : path ∈ document.leaves) : path ≠ [] := by
  obtain ⟨value, hvalue, -⟩ := mem_leaves.mp h
  obtain ⟨member, -, hbranch⟩ := mem_terminals.mp hvalue
  obtain ⟨rest, hrest⟩ := name_of_mem_branch hbranch
  rw [show path = member.1 :: rest from hrest]
  exact List.cons_ne_nil _ _

theorem segments_ofPath_of_mem_leaves {document : Document} (h : document.plainNames = true)
    {path : List Text} (hpath : path ∈ document.leaves) :
    Key.segments (Key.ofPath path) = path := by
  obtain ⟨value, hvalue, -⟩ := mem_leaves.mp hpath
  exact Key.segments_ofPath (ne_nil_of_mem_leaves hpath)
    (List.all_eq_true.mp (List.all_eq_true.mp h _ hvalue))

/-- If names are plain and distinct, the segments of a key lead to its own leaf and to no other
terminal. -/
theorem segments_prefix_iff {document : Document} (hdistinct : Json.DistinctNames (.obj document))
    (hplain : document.plainNames = true) {key : Text} (hkey : key ∈ document.keys)
    {terminal : List Text × Json} (hterminal : terminal ∈ document.terminals) :
    Key.segments key <+: terminal.1 ↔
      terminal.2.members? = none ∧ Key.ofPath terminal.1 = key := by
  constructor
  · intro hstarts
    obtain ⟨path, hpath, rfl⟩ := mem_keys.mp hkey
    rw [segments_ofPath_of_mem_leaves hplain hpath] at hstarts
    obtain ⟨value, hvalue, hleaf⟩ := mem_leaves.mp hpath
    rw [← eq_of_prefix_terminals hdistinct hvalue hterminal hstarts]
    exact ⟨hleaf, rfl⟩
  · rintro ⟨hleaf, rfl⟩
    have hpath : terminal.1 ∈ document.leaves := mem_leaves.mpr ⟨terminal.2, hterminal, hleaf⟩
    rw [segments_ofPath_of_mem_leaves hplain hpath]

/-- Erasing keys of a document with plain and distinct names takes out their leaves and no other
terminal. -/
theorem terminals_eraseKeys_of_plain {document : Document}
    (hdistinct : Json.DistinctNames (.obj document)) (hplain : document.plainNames = true)
    {keys : List Text} (hkeys : ∀ key ∈ keys, key ∈ document.keys) :
    (document.eraseKeys keys).1.terminals = document.terminals.filter fun terminal =>
      terminal.2.members?.isSome || decide (Key.ofPath terminal.1 ∉ keys) := by
  rw [terminals_eraseKeys]
  apply List.filter_congr
  intro terminal hterminal
  have hleads : ∀ key ∈ keys, Key.segments key <+: terminal.1 ↔
      terminal.2.members? = none ∧ Key.ofPath terminal.1 = key := fun key hkey =>
    segments_prefix_iff hdistinct hplain (hkeys key hkey) hterminal
  rw [Bool.eq_iff_iff, spared_iff, Bool.or_eq_true, decide_eq_true_iff, Option.isSome_iff_ne_none]
  constructor
  · intro hspared
    by_cases hleaf : terminal.2.members? = none
    · exact Or.inr fun hmem => hspared _ hmem ((hleads _ hmem).mpr ⟨hleaf, rfl⟩)
    · exact Or.inl hleaf
  · intro hkept key hkey hstarts
    obtain ⟨hleaf, rfl⟩ := (hleads key hkey).mp hstarts
    rcases hkept with hobject | hother
    · exact hobject hleaf
    · exact hother hkey

/-- Erasing keys of a document with plain and distinct names leaves the other keys. -/
theorem keys_eraseKeys_of_plain {document : Document}
    (hdistinct : Json.DistinctNames (.obj document)) (hplain : document.plainNames = true)
    {erased : KeySet} (herased : ∀ key ∈ erased, key ∈ document.keys) :
    (document.eraseKeys erased.toList).1.keys = document.keys.diff erased := by
  have hterminals := terminals_eraseKeys_of_plain hdistinct hplain herased
  ext key
  rw [KeySet.mem_diff, mem_keys, mem_keys]
  constructor
  · rintro ⟨path, hpath, rfl⟩
    obtain ⟨value, hvalue, hleaf⟩ := mem_leaves.mp hpath
    rw [hterminals, List.mem_filter] at hvalue
    refine ⟨⟨path, mem_leaves.mpr ⟨value, hvalue.1, hleaf⟩, rfl⟩, ?_⟩
    simpa [hleaf, KeySet.mem_toList] using hvalue.2
  · rintro ⟨⟨path, hpath, rfl⟩, hkept⟩
    obtain ⟨value, hvalue, hleaf⟩ := mem_leaves.mp hpath
    refine ⟨path, mem_leaves.mpr ⟨value, ?_, hleaf⟩, rfl⟩
    rw [hterminals, List.mem_filter]
    exact ⟨hvalue, by simpa [hleaf, KeySet.mem_toList] using hkept⟩

/-- Erasing other keys leaves something at a key. -/
theorem hasKey_eraseKeys_of_plain {document : Document}
    (hdistinct : Json.DistinctNames (.obj document)) (hplain : document.plainNames = true)
    {keys : List Text} (hkeys : ∀ key ∈ keys, key ∈ document.keys) {key : Text}
    (hkey : key ∈ document.keys) (hother : key ∉ keys) :
    (document.eraseKeys keys).1.hasKey key = true := by
  obtain ⟨path, hpath, rfl⟩ := mem_keys.mp hkey
  obtain ⟨value, hvalue, hleaf⟩ := mem_leaves.mp hpath
  refine (hasPath_iff (segments_ne_nil _)).mpr ⟨(path, value), ?_, ?_⟩
  · rw [terminals_eraseKeys_of_plain hdistinct hplain hkeys, List.mem_filter]
    exact ⟨hvalue, by simpa [hleaf] using hother⟩
  · rw [segments_ofPath_of_mem_leaves hplain hpath]

/-- A document of leaves with plain and distinct names is empty without its keys. -/
theorem eraseKeys_keys_of_plain {document : Document}
    (hdistinct : Json.DistinctNames (.obj document)) (hplain : document.plainNames = true)
    (hleaves : ∀ path, (path, .obj []) ∉ document.terminals) :
    (document.eraseKeys document.keys.toList).1 = [] := by
  apply terminals_eq_nil_iff.mp
  rw [terminals_eraseKeys_of_plain hdistinct hplain fun key hkey => hkey]
  apply List.filter_eq_nil_iff.mpr
  intro terminal hterminal hkept
  rcases leaf_or_empty_of_mem_terminals hterminal with hleaf | hempty
  · have hpath : terminal.1 ∈ document.leaves := mem_leaves.mpr ⟨terminal.2, hterminal, hleaf⟩
    have hkey : Key.ofPath terminal.1 ∈ document.keys := mem_keys.mpr ⟨terminal.1, hpath, rfl⟩
    simp [hleaf, KeySet.mem_toList, hkey] at hkept
  · exact hleaves terminal.1 (hempty ▸ hterminal)

/-- In a document with plain and distinct names, a key stands for one leaf: the keys are the joined
paths of the leaves, no two of which are joined to the same key.  Erasing some of the keys in order
finds each of them, takes out their leaves and leaves the other terminals as they are; a document
without empty objects is empty once all its keys are erased. -/
theorem keys_address_leaves {document : Document} (hdistinct : Json.DistinctNames (.obj document))
    (hplain : document.plainNames = true) :
    (∀ first ∈ document.leaves, ∀ second ∈ document.leaves,
      Text.join [Key.separator] first = Text.join [Key.separator] second → first = second) ∧
    (∀ key, key ∈ document.keys ↔
      ∃ path ∈ document.leaves, Text.join [Key.separator] path = key) ∧
    ∀ erased : KeySet, (∀ key ∈ erased, key ∈ document.keys) →
      (∀ before key after, erased.toList = before ++ key :: after →
        (document.eraseKeys before).1.hasKey key = true) ∧
      (document.eraseKeys erased.toList).1.keys = document.keys.diff erased ∧
      (document.eraseKeys erased.toList).1.terminals = document.terminals.filter (fun terminal =>
        terminal.2.members?.isSome || decide (Text.join [Key.separator] terminal.1 ∉ erased)) ∧
      (erased = document.keys → (∀ path, (path, .obj []) ∉ document.terminals) →
        (document.eraseKeys erased.toList).1 = []) := by
  have hjoin : ∀ terminal ∈ document.terminals,
      Key.ofPath terminal.1 = Text.join [Key.separator] terminal.1 := fun terminal hterminal =>
    Key.ofPath_eq_join (List.all_eq_true.mp (List.all_eq_true.mp hplain terminal hterminal))
  have hleaf : ∀ path ∈ document.leaves, Key.ofPath path = Text.join [Key.separator] path := by
    intro path hpath
    obtain ⟨value, hvalue, -⟩ := mem_leaves.mp hpath
    exact hjoin _ hvalue
  refine ⟨?_, ?_, ?_⟩
  · intro first hfirst second hsecond hsame
    rw [← hleaf first hfirst, ← hleaf second hsecond] at hsame
    calc first
        = Key.segments (Key.ofPath first) := (segments_ofPath_of_mem_leaves hplain hfirst).symm
      _ = Key.segments (Key.ofPath second) := by rw [hsame]
      _ = second := segments_ofPath_of_mem_leaves hplain hsecond
  · intro key
    rw [mem_keys]
    exact exists_congr fun path => and_congr_right fun hpath => by rw [hleaf path hpath]
  · intro erased herased
    refine ⟨?_, keys_eraseKeys_of_plain hdistinct hplain herased, ?_, ?_⟩
    · intro before key after hsplit
      have hmem : ∀ other ∈ before ++ key :: after, other ∈ document.keys := by
        rw [← hsplit]
        exact herased
      -- the keys of a set are listed once each
      have hnodup : (before ++ key :: after).Nodup := hsplit ▸ erased.nodup
      apply hasKey_eraseKeys_of_plain hdistinct hplain _ (hmem key (by simp))
      · intro hbefore
        exact List.disjoint_of_nodup_append hnodup hbefore List.mem_cons_self
      · intro other hother
        exact hmem other (List.mem_append_left _ hother)
    · rw [terminals_eraseKeys_of_plain hdistinct hplain herased]
      apply List.filter_congr
      intro terminal hterminal
      rw [hjoin terminal hterminal]
      rfl
    · rintro rfl hleaves
      exact eraseKeys_keys_of_plain hdistinct hplain hleaves

/-- In the document `a: b: 1, c: d: null` the key `a.c.d` is found after `a.b`, and then nothing is
left. -/
theorem keys_address_leaves_nested :
    let document : Document := [("a", .obj [("b", .int 1), ("c", .obj [("d", .null)])])]
    Json.DistinctNames (.obj document) ∧ document.plainNames = true ∧
      (∀ key ∈ KeySet.ofList ["a.b", "a.c.d"], key ∈ document.keys) ∧
      (document.eraseKeys ["a.b"]).1.hasKey "a.c.d" = true ∧
      (document.eraseKeys ["a.b", "a.c.d"]).1 = [] := by
  intro document
  have hdistinct : Json.DistinctNames (.obj document) := by
    have hnames : ∀ value ∈ Json.values (.obj document),
        (value.members?.all fun members => decide (Assoc.names members).Nodup) = true := by
      decide
    intro members hmembers
    simpa [Json.members?] using hnames _ hmembers
  have hplain : document.plainNames = true := by decide
  have hkeys : ∀ key ∈ (KeySet.ofList ["a.b", "a.c.d"]).toList, key ∈ document.keys := by decide
  have hdefined : ∀ key ∈ document.keys.toList, key ∈ KeySet.ofList ["a.b", "a.c.d"] := by decide
  have hall : KeySet.ofList ["a.b", "a.c.d"] = document.keys := by
    ext key
    exact ⟨hkeys key, hdefined key⟩
  obtain ⟨hfound, -, -, hempty⟩ := (keys_address_leaves hdistinct hplain).2.2 _ hkeys
  refine ⟨hdistinct, hplain, hkeys, hfound ["a.b"] "a.c.d" [] rfl, ?_⟩
  refine hempty hall fun path hpath => ?_
  have hleaves : ∀ terminal ∈ document.terminals, terminal.2.members? = none := by
    simp [document, terminals, memberTerminals, valueTerminals, Json.members?]
  exact absurd (hleaves _ hpath) (by simp [Json.members?])

/-- Of a document with plain names, erasing the unused keys leaves the used ones. -/
theorem keys_pruned [Json.Limits] {document : Document} (hloadable : document.Loadable)
    (hplain : document.plainNames = true) (used : KeySet) :
    (document.pruned used).keys = document.keys.inter used := by
  have hunused : ∀ key ∈ (Reconciliation.compare document.keys used).unused, key ∈ document.keys :=
    fun key hkey => (KeySet.mem_diff.mp hkey).1
  unfold pruned
  rw [keys_eraseKeys_of_plain hloadable.distinctNames hplain hunused]
  ext key
  simp only [Reconciliation.compare, KeySet.mem_diff, KeySet.mem_inter]
  tauto

end Document

end MessageKeys
