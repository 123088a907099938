import Mathlib.Data.List.Infix
import MessageKeys.Project.Sources
import MessageKeys.Proofs.Files.WellFormed

/-!
# What patterns match

The rows of the matcher say for every end of a name whether the items match it (`marks_matchRow`),
so that a component matches a name exactly as its items say one by one (`matchTokens_iff`).

A file that a pattern finds has a name that the last component of the pattern matches, so that it
ends as the pattern does if that is a star before plain code points (`suffix_of_mem_matching`).  An
end of ASCII characters is not lost in the form in which a name is stored (`suffix_stored`).
-/

namespace MessageKeys

/-! ## Steps that may fail -/

theorem bind_eq_ok_iff {ε α β : Type} {x : Except ε α} {f : α → Except ε β} {b : β} :
    x >>= f = .ok b ↔ ∃ a, x = .ok a ∧ f a = .ok b := by
  cases x <;> simp [bind, Except.bind]

theorem mapError_eq_ok_iff {ε δ α : Type} {x : Except ε α} {f : ε → δ} {a : α} :
    x.mapError f = .ok a ↔ x = .ok a := by
  cases x <;> simp [Except.mapError]

theorem map_eq_ok_iff {ε α β : Type} {x : Except ε α} {f : α → β} {b : β} :
    x.map f = .ok b ↔ ∃ a, x = .ok a ∧ f a = b := by
  cases x <;> simp [Except.map]

theorem mem_of_mapM_ok {ε α β : Type} {f : α → Except ε β} {xs : List α} {ys : List β}
    (h : xs.mapM f = .ok ys) {y : β} (hy : y ∈ ys) : ∃ x ∈ xs, f x = .ok y := by
  induction xs generalizing ys with
  | nil =>
      obtain rfl := Except.ok.inj h
      exact absurd hy List.not_mem_nil
  | cons x xs ih =>
      rw [List.mapM_cons, bind_eq_ok_iff] at h
      obtain ⟨first, hx, h⟩ := h
      obtain ⟨rest, hxs, h⟩ := bind_eq_ok_iff.mp h
      obtain rfl := Except.ok.inj h
      rcases List.mem_cons.mp hy with rfl | hy
      · exact ⟨x, List.mem_cons_self, hx⟩
      · obtain ⟨other, hother, hf⟩ := ih hxs hy
        exact ⟨other, List.mem_cons_of_mem x hother, hf⟩

theorem mem_of_filterAuxM_ok {ε α : Type} {p : α → Except ε Bool} {xs ys acc : List α}
    (h : xs.filterAuxM p acc = .ok ys) {y : α} (hy : y ∈ ys) : y ∈ xs ∨ y ∈ acc := by
  induction xs generalizing acc with
  | nil =>
      obtain rfl := Except.ok.inj h
      exact Or.inr hy
  | cons x xs ih =>
      rw [List.filterAuxM, bind_eq_ok_iff] at h
      obtain ⟨keep, -, h⟩ := h
      rcases ih h with hxs | hacc
      · exact Or.inl (List.mem_cons_of_mem x hxs)
      · cases keep with
        | true =>
            rcases List.mem_cons.mp hacc with rfl | hacc
            · exact Or.inl List.mem_cons_self
            · exact Or.inr hacc
        | false => exact Or.inr hacc

theorem mem_of_filterM_ok {ε α : Type} {p : α → Except ε Bool} {xs ys : List α}
    (h : xs.filterM p = .ok ys) {y : α} (hy : y ∈ ys) : y ∈ xs := by
  unfold List.filterM at h
  obtain ⟨kept, haux, h⟩ := bind_eq_ok_iff.mp h
  obtain rfl := Except.ok.inj h
  rcases mem_of_filterAuxM_ok haux (List.mem_reverse.mp hy) with hxs | hnil
  · exact hxs
  · exact absurd hnil List.not_mem_nil

namespace Wildcard

/-! ## Matching a name -/

/-- What items match, one by one. -/
def Matches : List Token → Text → Prop
  | [], t => t = []
  | .anyRun :: items, t => ∃ tail, tail <:+ t ∧ Matches items tail
  | token :: items, t => ∃ c rest, t = c :: rest ∧ token.takes c = true ∧ Matches items rest

/-- A row says for every end of a name whether the items match it. -/
def Marks (items : List Token) (name : Text) (row : List Bool) : Prop :=
  List.Forall₂ (fun mark tail => mark = true ↔ Matches items tail) row name.tails

theorem Marks.head {items : List Token} {name : Text} {row : List Bool} (h : Marks items name row) :
    row.headD false = true ↔ Matches items name := by
  cases name with
  | nil =>
      cases h with
      | cons hmark _ => exact hmark
  | cons c rest =>
      rw [Marks, List.tails_cons] at h
      cases h with
      | cons hmark _ => exact hmark

theorem marks_endRow (name : Text) : Marks [] name (endRow name) := by
  induction name with
  | nil => exact .cons (iff_of_true rfl rfl) .nil
  | cons c rest ih =>
      rw [Marks, List.tails_cons]
      exact .cons (iff_of_false Bool.false_ne_true (List.cons_ne_nil c rest)) ih

theorem Marks.spreadRow {items : List Token} {name : Text} {row : List Bool}
    (h : Marks items name row) : Marks (.anyRun :: items) name (spreadRow row) := by
  induction name generalizing row with
  | nil =>
      cases h with
      | @cons mark _ _ _ hmark hrest =>
          cases hrest
          refine .cons ?_ .nil
          simpa [Wildcard.spreadRow, Matches] using hmark
  | cons c rest ih =>
      rw [Marks, List.tails_cons] at h
      cases h with
      | @cons mark _ marks _ hmark hrest =>
          have hlater := ih hrest
          rw [Marks, List.tails_cons]
          refine .cons ?_ hlater
          rw [Bool.or_eq_true, hmark, hlater.head]
          simp only [Matches, List.suffix_cons_iff, or_and_right, exists_or, exists_eq_left]

theorem matches_cons {token : Token} (htoken : token ≠ .anyRun) {items : List Token} {t : Text} :
    Matches (token :: items) t ↔
      ∃ c rest, t = c :: rest ∧ token.takes c = true ∧ Matches items rest := by
  cases token with
  | anyRun => exact absurd rfl htoken
  | point c | anyPoint | oneOf negated ranges => rw [Matches]; simp

theorem Marks.takeRow {token : Token} (htoken : token ≠ .anyRun) {items : List Token} {name : Text}
    {row : List Bool} (h : Marks items name row) :
    Marks (token :: items) name (takeRow token name row) := by
  induction name generalizing row with
  | nil =>
      refine .cons ?_ .nil
      rw [matches_cons htoken]
      simp
  | cons c rest ih =>
      rw [Marks, List.tails_cons] at h
      cases h with
      | @cons mark _ marks _ hmark hrest =>
          rw [Marks, List.tails_cons]
          refine .cons ?_ (ih hrest)
          rw [matches_cons htoken, Bool.and_eq_true, Marks.head hrest]
          simp

/-- A row marks the ends of a name that the items match. -/
theorem marks_matchRow (items : List Token) (name : Text) :
    Marks items name (matchRow name items) := by
  induction items with
  | nil => exact marks_endRow name
  | cons token items ih =>
      cases token with
      | anyRun => exact ih.spreadRow
      | point c | anyPoint | oneOf negated ranges => exact ih.takeRow (by simp)

/-- Items match a name as they say one by one. -/
theorem matchTokens_iff {items : List Token} {name : Text} :
    matchTokens items name = true ↔ Matches items name :=
  (marks_matchRow items name).head

theorem matches_points {points t : Text} : Matches (points.map .point) t ↔ t = points := by
  induction points generalizing t with
  | nil => rw [List.map_nil, Matches]
  | cons c points ih =>
      have hpoint : Token.point c ≠ .anyRun := by simp
      rw [List.map_cons, matches_cons hpoint]
      constructor
      · rintro ⟨d, rest, rfl, htakes, hrest⟩
        rw [ih.mp hrest, of_decide_eq_true htakes]
      · rintro rfl
        exact ⟨c, points, rfl, decide_eq_true rfl, ih.mpr rfl⟩

/-- A star before plain code points stands for the names that end in them. -/
theorem matchName_iff_suffix {component points : Text}
    (h : tokens component = .anyRun :: points.map .point) {name : Text} :
    matchName component name = true ↔ points <:+ name := by
  unfold matchName
  rw [h, matchTokens_iff, Matches]
  simp only [matches_points, exists_eq_right]

/-! ## Searching along components -/

theorem mem_extend {fs : FileSystem} {component : Text} {last : Bool} {path found : Path}
    (hdepth : component ≠ anyDepth) (hmagic : hasMagic component = true)
    (h : found ∈ extend fs component last path) :
    ∃ name, found = path.child name ∧ matchName component name = true := by
  unfold extend at h
  dsimp only at h
  rw [if_neg hdepth, if_pos hmagic] at h
  split at h
  · obtain ⟨⟨name, entry⟩, -, hfound⟩ := List.mem_filterMap.mp h
    dsimp only at hfound
    split_ifs at hfound with hmatch
    rw [Bool.and_eq_true] at hmatch
    exact ⟨name, (Option.some.inj hfound).symm, hmatch.2⟩
  · exact absurd h List.not_mem_nil

theorem mem_extendAll {fs : FileSystem} (front : List Text) {last : Text} {paths : List Path}
    {found : Path} (h : found ∈ extendAll fs (front ++ [last]) paths) :
    ∃ path, found ∈ extend fs last true path := by
  induction front generalizing paths with
  | nil =>
      rw [List.nil_append, extendAll, extendAll, List.mem_eraseDups] at h
      obtain ⟨path, -, hpath⟩ := List.mem_flatMap.mp h
      exact ⟨path, hpath⟩
  | cons component front ih =>
      rw [List.cons_append, extendAll] at h
      exact ih h

/-- A pattern that ends in a component with a wildcard finds names that this component matches. -/
theorem mem_expand {fs : FileSystem} {directory : Path} {pattern last : Text} {front : List Text}
    (hpattern : compact ((pieces pattern).dropWhile fun piece => !hasMagic piece) = front ++ [last])
    (hdepth : last ≠ anyDepth) (hmagic : hasMagic last = true) {paths : List Path}
    (h : expand fs directory pattern = .ok paths) {path : Path} (hpath : path ∈ paths) :
    ∃ parent name, path = tidy (Path.child parent name) ∧ matchName last name = true := by
  unfold expand at h
  dsimp only at h
  rw [hpattern] at h
  split_ifs at h with hempty hlong
  · simp at hempty
  · split at h
    · contradiction
    · obtain rfl := Except.ok.inj h
      obtain ⟨found, hfound, rfl⟩ := List.mem_map.mp hpath
      obtain ⟨parent, hparent⟩ := mem_extendAll front (List.mem_of_mem_filter hfound)
      obtain ⟨name, rfl, hmatch⟩ := mem_extend hdepth hmagic hparent
      exact ⟨parent, name, rfl, hmatch⟩

end Wildcard

namespace PathName

/-! ## The ends of stored names -/

theorem encodePoint_of_ascii {c : CodePoint} (h : c.val < 0x80) :
    Utf8.encodePoint c = [UInt8.ofNat c.val] := by
  unfold Utf8.encodePoint
  dsimp only
  rw [if_pos h]

theorem pointBytes?_ne_nil (c : CodePoint) : pointBytes? c ≠ some [] := by
  unfold pointBytes? Utf8.encodePoint
  split
  · simp
  · dsimp only
    split_ifs <;> simp

/-- Only an ASCII character has bytes that end below `0x80`. -/
theorem eq_of_pointBytes? {c d : CodePoint} (hc : c.val < 0x80) {front : Bytes}
    (h : pointBytes? d = some (front ++ [UInt8.ofNat c.val])) : front = [] ∧ d = c := by
  have hd := d.isLt
  have hbyte : ∀ n, n < 256 → UInt8.ofNat n = UInt8.ofNat c.val → n = c.val := by
    intro n hn heq
    have hnat := congrArg UInt8.toNat heq
    rw [Utf8.toNat_ofNat_of_le (by omega), Utf8.toNat_ofNat_of_le (by omega)] at hnat
    exact hnat
  have hends : ∀ {init : Bytes} {b : UInt8}, init ++ [b] = front ++ [UInt8.ofNat c.val] →
      front = init ∧ b = UInt8.ofNat c.val := by
    intro init b heq
    obtain ⟨hinit, hlast⟩ := List.append_inj' heq rfl
    exact ⟨hinit.symm, List.singleton_inj.mp hlast⟩
  unfold pointBytes? at h
  split at h
  · rename_i b hb
    unfold loneByte? at hb
    split_ifs at hb with hrange
    obtain ⟨-, hlast⟩ := @hends [] b (Option.some.inj h)
    rw [← Option.some.inj hb] at hlast
    simp only [Bool.and_eq_true, decide_eq_true_eq] at hrange
    have hval := hbyte _ (by omega) hlast
    omega
  · split_ifs at h
    have hpoint := Option.some.inj h
    unfold Utf8.encodePoint at hpoint
    dsimp only at hpoint
    split_ifs at hpoint with hone htwo hthree
    · obtain ⟨hfront, hlast⟩ := @hends [] _ hpoint
      exact ⟨hfront, Fin.ext (hbyte _ (by omega) hlast)⟩
    · have hval := hbyte _ (by omega) (@hends [_] _ hpoint).2
      omega
    · have hval := hbyte _ (by omega) (@hends [_, _] _ hpoint).2
      omega
    · have hval := hbyte _ (by omega) (@hends [_, _, _] _ hpoint).2
      omega

/-- A text whose bytes end in those of ASCII characters ends in these characters. -/
theorem suffix_of_bytes? {tail : Text} (htail : ∀ c ∈ tail, c.val < 0x80) {t : Text} {front : Bytes}
    (h : bytes? t = some (front ++ tail.flatMap Utf8.encodePoint)) : tail <:+ t := by
  induction tail using List.reverseRecOn generalizing t with
  | nil => exact List.nil_suffix
  | append_singleton tail c ih =>
      rw [List.forall_mem_append] at htail
      have hc := htail.2 c List.mem_cons_self
      rw [List.flatMap_append, List.flatMap_cons, List.flatMap_nil, List.append_nil,
        encodePoint_of_ascii hc, ← List.append_assoc] at h
      rcases List.eq_nil_or_concat t with rfl | ⟨rest, d, rfl⟩
      · simp [bytes?] at h
      · rw [List.concat_eq_append] at h ⊢
        rw [bytes?_append] at h
        obtain ⟨first, hfirst, h⟩ := Option.bind_eq_some_iff.mp h
        obtain ⟨last, hlast, h⟩ := Option.map_eq_some_iff.mp h
        have hpoint : pointBytes? d = some last := by
          rw [bytes?_cons] at hlast
          simpa [bytes?] using hlast
        -- the last code point has the last byte
        rcases List.eq_nil_or_concat last with rfl | ⟨init, b, rfl⟩
        · exact absurd hpoint (pointBytes?_ne_nil d)
        · rw [List.concat_eq_append] at h hpoint
          rw [← List.append_assoc] at h
          obtain ⟨hfront, hb⟩ := List.append_inj' h rfl
          rw [List.singleton_inj.mp hb] at hpoint
          obtain ⟨rfl, rfl⟩ := eq_of_pointBytes? hc hpoint
          rw [List.append_nil] at hfront
          rw [hfront] at hfirst
          obtain ⟨before, rfl⟩ := ih htail.1 hfirst
          exact ⟨before, (List.append_assoc before tail [d]).symm⟩

/-- An end of ASCII characters stays in the form in which a name is stored. -/
theorem suffix_stored {tail name : Text} (htail : ∀ c ∈ tail, c.val < 0x80) (h : tail <:+ name) :
    tail <:+ stored name := by
  obtain ⟨front, rfl⟩ := h
  have hbytes : bytes? tail = some (tail.flatMap Utf8.encodePoint) := by
    refine FileSystem.bytes?_of_scalars fun c hc => ?_
    have hlt := htail c hc
    simp only [CodePoint.isSurrogate, Bool.and_eq_false_iff, decide_eq_false_iff_not]
    omega
  cases hfront : bytes? front with
  | none =>
      have hnone : bytes? (front ++ tail) = none := by
        rw [bytes?_append, hfront]
        rfl
      unfold stored
      rw [hnone]
      exact List.suffix_append front tail
  | some first =>
      have hsame : bytes? (stored (front ++ tail))
          = some (first ++ tail.flatMap Utf8.encodePoint) := by
        rw [bytes?_stored, bytes?_append, hfront, hbytes]
        rfl
      exact suffix_of_bytes? htail hsame

end PathName

namespace FileSystem

/-! ## The files of patterns -/

theorem mem_matching {fs : FileSystem} {directory : Path} {pattern : Text}
    {places : List AbsolutePath} (h : fs.matching directory pattern = .ok places)
    {place : AbsolutePath} (hplace : place ∈ places) :
    ∃ paths, Wildcard.expand fs directory pattern = .ok paths ∧
      ∃ path ∈ paths, place = fs.resolve path := by
  unfold matching at h
  obtain ⟨paths, hexpand, h⟩ := bind_eq_ok_iff.mp h
  obtain ⟨resolved, hresolved, h⟩ := bind_eq_ok_iff.mp h
  obtain ⟨path, hpath, hresolve⟩ := mem_of_mapM_ok hresolved (mem_of_filterM_ok h hplace)
  exact ⟨paths, hexpand, path, hpath, eq_resolve (mapError_eq_ok_iff.mp hresolve)⟩

theorem mem_discover {fs : FileSystem} {patterns : List Text} {directory : Path}
    {places : List AbsolutePath} (h : fs.discover patterns directory = .ok places)
    {place : AbsolutePath} (hplace : place ∈ places) :
    ∃ pattern ∈ patterns, ∃ found, fs.matching directory pattern = .ok found ∧ place ∈ found := by
  unfold discover at h
  cases hfound : patterns.mapM (fs.matching directory) with
  | error e =>
      rw [hfound] at h
      contradiction
  | ok found =>
      rw [hfound] at h
      obtain rfl := Except.ok.inj h
      rw [List.mem_mergeSort, List.mem_eraseDups] at hplace
      obtain ⟨ones, hones, hplace⟩ := List.mem_flatten.mp hplace
      obtain ⟨pattern, hpattern, hmatching⟩ := mem_of_mapM_ok hfound hones
      exact ⟨pattern, hpattern, ones, hmatching, hplace⟩

/-- A pattern whose last component is a star before plain code points finds names that end in
them. -/
theorem suffix_of_mem_matching {fs : FileSystem} (hlinks : fs.links = [])
    (hworking : Path.Plain fs.workingDirectory) {directory : Path} {pattern last points : Text}
    {front : List Text}
    (hpattern : Wildcard.compact ((Wildcard.pieces pattern).dropWhile
      fun piece => !Wildcard.hasMagic piece) = front ++ [last])
    (hdepth : last ≠ Wildcard.anyDepth) (hmagic : Wildcard.hasMagic last = true)
    (htokens : Wildcard.tokens last = .anyRun :: points.map .point) (hpoints : 3 ≤ points.length)
    {places : List AbsolutePath} (h : fs.matching directory pattern = .ok places)
    {place : AbsolutePath} (hplace : place ∈ places) :
    Path.Plain place ∧ ∃ parent name, place = parent ++ [name] ∧ points <:+ name := by
  obtain ⟨paths, hexpand, path, hpath, rfl⟩ := mem_matching h hplace
  obtain ⟨parent, name, rfl, hmatch⟩ := Wildcard.mem_expand hpattern hdepth hmagic hexpand hpath
  rw [resolve_of_unlinked hlinks]
  refine ⟨plain_resolve hworking fun part hpart => List.of_mem_filter hpart, ?_⟩
  have hsuffix := (Wildcard.matchName_iff_suffix htokens).mp hmatch
  -- such a name is long enough to be neither empty nor one that stands for a directory
  have hlength : 3 ≤ name.length := hpoints.trans hsuffix.length_le
  have hne : ∀ other : Text, other.length < 3 → name ≠ other := by
    rintro other hother rfl
    omega
  have hpart : Path.isPart name = true := by
    simp [Path.isPart, hne [] (by decide), hne PathName.here (by decide)]
  have hup : name ≠ PathName.up := hne _ (by decide)
  have htidy : (Wildcard.tidy (parent.child name)).parts
      = parent.parts.filter Path.isPart ++ [name] := by
    unfold Wildcard.tidy Path.child
    rw [List.filter_append, List.filter_cons_of_pos hpart, List.filter_nil]
  unfold Path.resolve
  rw [htidy]
  split <;>
  · rw [List.foldl_append, List.foldl_cons, List.foldl_nil, Path.descend, if_neg hup]
    exact ⟨_, name, rfl, hsuffix⟩

end FileSystem

end MessageKeys
