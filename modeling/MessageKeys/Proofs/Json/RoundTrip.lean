import MessageKeys.Proofs.Assoc
import MessageKeys.Proofs.Json.Tokens

/-!
# Values read back

`Readable room value` says what a reader with `room` levels of nesting can have read: whole
numbers within the limit of digits, the one value that is not a number, distinct names in every
object, and no more than `room` levels.

* Whatever the reader returns is readable (`readable_of_readValue`).
* The indented form of a readable value is read as that value (`readValue_prettyOnto`): the
  induction is on the value, and the bound on nested calls is compared with the length of what is
  read.
-/

namespace MessageKeys.Json

/-- What a reader with so many levels of nesting can have read. -/
inductive Readable [Limits] : ℕ → Json → Prop
  | null {room : ℕ} : Readable room .null
  | bool {room : ℕ} (b : Bool) : Readable room (.bool b)
  | int {room : ℕ} {n : ℤ} (h : (Numeral.decimal n.natAbs).length ≤ Limits.digits) :
      Readable room (.int n)
  | real {room : ℕ} {x : Binary64} (h : x.shape = .notANumber → x = Binary64.nan) :
      Readable room (.real x)
  | str {room : ℕ} (s : Text) : Readable room (.str s)
  | arr {room : ℕ} {items : List Json} (h : ∀ item ∈ items, Readable room item) :
      Readable (room + 1) (.arr items)
  | obj {room : ℕ} {members : List (Text × Json)} (hnames : (Assoc.names members).Nodup)
      (h : ∀ member ∈ members, Readable room member.2) : Readable (room + 1) (.obj members)

/-! ## Where a value begins -/

/-- A code point with which a value may begin. -/
def Opens (c : CodePoint) : Prop :=
  isBlank c = false ∧ c ≠ CodePoint.ofChar ']'

theorem opens_of_isDigit {c : CodePoint} (h : c.isDigit = true) : Opens c := by
  simp only [CodePoint.isDigit, Bool.and_eq_true, decide_eq_true_eq] at h
  refine ⟨?_, ?_⟩
  · simp only [isBlank, Bool.or_eq_false_iff, beq_eq_false_iff_ne]
    omega
  · rintro rfl
    exact absurd h (by decide)

theorem isDigit_of_readWhole? {t : Text} {parts : Text × Text} (h : readWhole? t = some parts) :
    ∃ c rest, t = c :: rest ∧ c.isDigit = true := by
  cases t with
  | nil => contradiction
  | cons c rest =>
      refine ⟨c, rest, rfl, ?_⟩
      unfold readWhole? at h
      dsimp only at h
      split_ifs at h with hzero hdigit
      · rw [hzero]
        rfl
      · exact hdigit

/-- A number begins with a digit, or with a sign and a digit. -/
theorem head_of_readNumber [Limits] {t : Text} {result : Json × Text}
    (h : readNumber t = .ok result) :
    ∃ c rest, c.isDigit = true ∧ (t = c :: rest ∨ t = CodePoint.ofChar '-' :: c :: rest) := by
  obtain ⟨negative, body, whole, after, rfl, hwhole, -⟩ := readNumber_cases h
  obtain ⟨c, rest, rfl, hdigit⟩ := isDigit_of_readWhole? hwhole
  refine ⟨c, rest, hdigit, ?_⟩
  cases negative with
  | true => exact Or.inr rfl
  | false => exact Or.inl rfl

/-- Every constant begins with two code points other than digits, the first of which may begin a
value. -/
theorem constants_spec : ∀ pair ∈ constants, 2 ≤ pair.1.length ∧
    (∀ c ∈ pair.1.take 2, c.isDigit = false) ∧ ∀ c ∈ pair.1.head?, Opens c := by
  intro pair hpair
  simp only [constants, List.mem_cons, List.not_mem_nil, or_false] at hpair
  rcases hpair with rfl | rfl | rfl | rfl | rfl | rfl <;>
    simp [Text.ofString, CodePoint.isDigit, CodePoint.ofChar, Opens, isBlank]

theorem readConstant?_of_readNumber [Limits] {t : Text} {result : Json × Text}
    (h : readNumber t = .ok result) : readConstant? t = none := by
  obtain ⟨c, rest, hc, ht⟩ := head_of_readNumber h
  have hmem : c ∈ t.take 2 := by
    rcases ht with rfl | rfl <;> simp
  unfold readConstant?
  rw [List.findSome?_eq_none_iff]
  intro pair hpair
  obtain ⟨hlength, hletters, -⟩ := constants_spec pair hpair
  refine if_neg fun hprefix => ?_
  -- the digit of the number would be among the first letters of the word
  obtain ⟨more, rfl⟩ := List.isPrefixOf_iff_prefix.mp hprefix
  rw [List.take_append_of_le_length hlength] at hmem
  rw [hletters c hmem] at hc
  contradiction

theorem head_of_readConstant? {t : Text} {found : Json × Text} (h : readConstant? t = some found) :
    ∃ c rest, t = c :: rest ∧ Opens c := by
  obtain ⟨pair, hpair, hfound⟩ := List.exists_of_findSome?_eq_some h
  dsimp only at hfound
  split_ifs at hfound with hprefix
  obtain ⟨more, rfl⟩ := List.isPrefixOf_iff_prefix.mp hprefix
  obtain ⟨hlength, -, hhead⟩ := constants_spec pair hpair
  cases hword : pair.1 with
  | nil => simp [hword] at hlength
  | cons c rest =>
      rw [hword] at hhead
      exact ⟨c, rest ++ more, rfl, hhead c rfl⟩

/-- A text that is read as a value begins with the value. -/
theorem head_of_readValue [Limits] {bound room : ℕ} {t : Text} {result : Json × Text}
    (h : readValue bound room t = .ok result) : ∃ c rest, t = c :: rest ∧ Opens c := by
  match bound, t with
  | 0, _ => contradiction
  | _ + 1, [] => contradiction
  | bound + 1, c :: rest =>
      unfold readValue at h
      split_ifs at h with hquote hbrace hbracket
      · rw [hquote]
        exact ⟨_, _, rfl, rfl, by decide⟩
      · rw [show c = CodePoint.ofNat 0x7b from Fin.ext hbrace]
        exact ⟨_, _, rfl, rfl, by decide⟩
      · rw [hbracket]
        exact ⟨_, _, rfl, rfl, by decide⟩
      · split at h
        · rename_i found hfound
          exact head_of_readConstant? hfound
        · obtain ⟨d, more, hd, ht⟩ := head_of_readNumber h
          rcases ht with ht | ht
          · exact ⟨d, more, ht, opens_of_isDigit hd⟩
          · exact ⟨_, d :: more, ht, rfl, by decide⟩

theorem skipBlanks_of_opens {c : CodePoint} (h : Opens c) (rest : Text) :
    skipBlanks (c :: rest) = c :: rest := by
  unfold skipBlanks
  rw [List.dropWhile_cons_of_neg (by rw [h.1]; exact Bool.false_ne_true)]

theorem skipBlanks_of_readValue [Limits] {bound room : ℕ} {t : Text} {result : Json × Text}
    (h : readValue bound room t = .ok result) : skipBlanks t = t := by
  obtain ⟨c, rest, rfl, hopens⟩ := head_of_readValue h
  exact skipBlanks_of_opens hopens rest

theorem head_of_readItems [Limits] {bound room : ℕ} {t : Text} {result : List Json × Text}
    (h : readItems bound room t = .ok result) : ∃ c rest, t = c :: rest ∧ Opens c := by
  cases bound with
  | zero => contradiction
  | succ bound =>
      rw [readItems] at h
      cases hitem : readValue bound room t with
      | error e =>
          rw [hitem] at h
          contradiction
      | ok item => exact head_of_readValue hitem

theorem skipBlanks_newline (level : ℕ) (rest : Text) :
    skipBlanks (newline level ++ rest) = skipBlanks rest := by
  unfold skipBlanks
  refine List.dropWhile_append_of_pos fun c hc => ?_
  rcases List.mem_cons.mp hc with rfl | hc
  · rfl
  · rw [List.eq_of_mem_replicate hc]
    rfl

/-! ## Written values -/

theorem delimited_nil : Delimited [] := by
  simp [Delimited]

theorem realText_ne_nil [Limits] (x : Binary64) : realText x ≠ [] := by
  cases hx : x.shape with
  | finite negative mantissa exponent =>
      obtain ⟨c, rest, -, htext⟩ := head_of_readNumber (readNumber_realText hx delimited_nil)
      rw [List.append_nil] at htext
      rcases htext with htext | htext <;> simp [htext]
  | infinite negative => cases negative <;> simp [realText, hx, Text.ofString]
  | notANumber => simp [realText, hx, Text.ofString]

mutual

theorem length_lt_prettyOnto [Limits] (level : ℕ) (rest : Text) :
    ∀ value, rest.length < (prettyOnto level rest value).length
  | .null => by simp [prettyOnto, Text.ofString, Nat.add_assoc]
  | .bool b => by cases b <;> simp [prettyOnto, Text.ofString, Nat.add_assoc]
  | .int n => by
      have hpos := List.length_pos_of_ne_nil (Numeral.decimal_ne_nil n.natAbs)
      rw [prettyOnto, signed_eq, List.length_append, List.length_append]
      omega
  | .real x => by
      have hpos := List.length_pos_of_ne_nil (realText_ne_nil x)
      rw [prettyOnto, List.length_append]
      omega
  | .str s => by
      rw [prettyOnto, quoted, List.length_append, List.length_append]
      simp only [show (Text.ofString "\"").length = 1 from rfl]
      omega
  | .arr [] => by simp [prettyOnto, Text.ofString, Nat.add_assoc]
  | .arr (item :: items) => by
      have hitem := length_lt_prettyOnto (level + 1) (prettyItems (level + 1)
        (newline level ++ (Text.ofString "]" ++ rest)) items) item
      have hitems :=
        length_le_prettyItems (level + 1) (newline level ++ (Text.ofString "]" ++ rest))
        items
      simp only [prettyOnto, List.length_append] at hitem hitems ⊢
      omega
  | .obj [] => by simp [prettyOnto, Text.ofString, Nat.add_assoc]
  | .obj ((name, value) :: members) => by
      have hvalue := length_lt_prettyOnto (level + 1) (prettyMembers (level + 1)
        (newline level ++ (Text.ofString "\x7d" ++ rest)) members) value
      have hmembers := length_le_prettyMembers (level + 1)
        (newline level ++ (Text.ofString "\x7d" ++ rest)) members
      simp only [prettyOnto, List.length_append] at hvalue hmembers ⊢
      omega

theorem length_le_prettyItems [Limits] (level : ℕ) (rest : Text) :
    ∀ items, rest.length ≤ (prettyItems level rest items).length
  | [] => le_refl _
  | item :: items => by
      have hitem := length_lt_prettyOnto level (prettyItems level rest items) item
      have hitems := length_le_prettyItems level rest items
      simp only [prettyItems, List.length_append]
      omega

theorem length_le_prettyMembers [Limits] (level : ℕ) (rest : Text) :
    ∀ members, rest.length ≤ (prettyMembers level rest members).length
  | [] => le_refl _
  | (name, value) :: members => by
      have hvalue := length_lt_prettyOnto level (prettyMembers level rest members) value
      have hmembers := length_le_prettyMembers level rest members
      simp only [prettyMembers, List.length_append]
      omega

end

mutual

theorem prettyOnto_append (level : ℕ) (rest more : Text) :
    ∀ value, prettyOnto level (rest ++ more) value = prettyOnto level rest value ++ more
  | .null => by simp [prettyOnto]
  | .bool _ => by simp [prettyOnto]
  | .int _ => by simp [prettyOnto]
  | .real _ => by simp [prettyOnto]
  | .str _ => by simp [prettyOnto]
  | .arr [] => by simp [prettyOnto]
  | .arr (item :: items) => by
      simp only [prettyOnto, List.append_assoc]
      rw [← prettyOnto_append, ← prettyItems_append]
      simp only [List.append_assoc]
  | .obj [] => by simp [prettyOnto]
  | .obj ((_, value) :: members) => by
      simp only [prettyOnto, List.append_assoc]
      rw [← prettyOnto_append, ← prettyMembers_append]
      simp only [List.append_assoc]

theorem prettyItems_append (level : ℕ) (rest more : Text) :
    ∀ items, prettyItems level (rest ++ more) items = prettyItems level rest items ++ more
  | [] => rfl
  | item :: items => by
      simp only [prettyItems, List.append_assoc]
      rw [prettyItems_append, prettyOnto_append]

theorem prettyMembers_append (level : ℕ) (rest more : Text) :
    ∀ members, prettyMembers level (rest ++ more) members = prettyMembers level rest members ++ more
  | [] => rfl
  | (_, value) :: members => by
      simp only [prettyMembers, List.append_assoc]
      rw [prettyMembers_append, prettyOnto_append]

end

theorem delimited_cons {c : CodePoint} (h : c = CodePoint.ofChar ',' ∨ c = CodePoint.ofChar '\n')
    (rest : Text) : Delimited (c :: rest) := by
  intro d hd
  rw [← Option.some.inj hd]
  rcases h with rfl | rfl <;> decide

theorem delimited_newline (level : ℕ) (rest : Text) : Delimited (newline level ++ rest) :=
  delimited_cons (Or.inr rfl) _

theorem delimited_prettyItems (level : ℕ) {rest : Text} (hrest : Delimited rest)
    (items : List Json) : Delimited (prettyItems level rest items) := by
  cases items with
  | nil => exact hrest
  | cons item items =>
      rw [prettyItems]
      exact delimited_cons (Or.inl rfl) _

theorem delimited_prettyMembers (level : ℕ) {rest : Text} (hrest : Delimited rest)
    (members : List (Text × Json)) : Delimited (prettyMembers level rest members) := by
  cases members with
  | nil => exact hrest
  | cons member members =>
      rw [prettyMembers]
      exact delimited_cons (Or.inl rfl) _

/-- The written form of a value is read as that value wherever it stands. -/
def ReadsBack [Limits] (room : ℕ) (value : Json) : Prop :=
  ∀ (level bound : ℕ) (rest : Text), Delimited rest →
    2 * (prettyOnto level rest value).length ≤ bound + 2 * rest.length →
    readValue bound room (prettyOnto level rest value) = .ok (value, rest)

/-- A written value is not empty, so there is a call left to read it. -/
theorem readsBack_of_succ [Limits] {room : ℕ} {value : Json}
    (h : ∀ (level bound : ℕ) (rest : Text), Delimited rest →
      2 * (prettyOnto level rest value).length ≤ bound + 1 + 2 * rest.length →
      readValue (bound + 1) room (prettyOnto level rest value) = .ok (value, rest)) :
    ReadsBack room value := by
  intro level bound rest hrest hbound
  have hlength := length_lt_prettyOnto level rest value
  obtain ⟨bound, rfl⟩ := Nat.exists_eq_succ_of_ne_zero (n := bound) (by omega)
  exact h level bound rest hrest hbound

theorem readItems_pretty [Limits] {room : ℕ} (level bound : ℕ) (rest : Text) {item : Json}
    {items : List Json} (hitem : ReadsBack room item) (hitems : ∀ item ∈ items, ReadsBack room item)
    (hbound : 2 * (prettyOnto (level + 1) (prettyItems (level + 1)
      (newline level ++ (Text.ofString "]" ++ rest)) items) item).length + 1
        ≤ bound + 2 * rest.length) :
    readItems bound room (prettyOnto (level + 1) (prettyItems (level + 1)
      (newline level ++ (Text.ofString "]" ++ rest)) items) item) = .ok (item :: items, rest) := by
  have hclose := delimited_newline level (Text.ofString "]" ++ rest)
  induction items generalizing item bound with
  | nil =>
      rw [prettyItems] at hbound ⊢
      have hlength := length_lt_prettyOnto (level + 1)
        (newline level ++ (Text.ofString "]" ++ rest)) item
      rw [List.length_append, List.length_append] at hlength
      obtain ⟨bound, rfl⟩ := Nat.exists_eq_succ_of_ne_zero (n := bound) (by omega)
      have hread := hitem (level + 1) bound _ hclose (by
        simp only [List.length_append]
        omega)
      rw [readItems, hread]
      dsimp only
      rw [skipBlanks_newline]
      rfl
  | cons next items ih =>
      have hlength := length_lt_prettyOnto (level + 1) (prettyItems (level + 1)
        (newline level ++ (Text.ofString "]" ++ rest)) (next :: items)) item
      have hnext := length_lt_prettyOnto (level + 1) (prettyItems (level + 1)
        (newline level ++ (Text.ofString "]" ++ rest)) items) next
      have hrest := length_le_prettyItems (level + 1)
        (newline level ++ (Text.ofString "]" ++ rest)) items
      have hmore := delimited_prettyItems (level + 1) hclose (next :: items)
      rw [prettyItems] at hlength hmore hbound ⊢
      simp only [List.length_append] at hlength hrest
      obtain ⟨bound, rfl⟩ := Nat.exists_eq_succ_of_ne_zero (n := bound) (by omega)
      have hread := hitem (level + 1) bound _ hmore (by
        simp only [List.length_append]
        omega)
      have htail := ih bound (hitems next List.mem_cons_self)
        (fun other hother => hitems other (List.mem_cons_of_mem next hother)) (by omega)
      obtain ⟨c, more, hhead, hopens⟩ := head_of_readItems htail
      rw [readItems, hread]
      dsimp only
      rw [show Text.ofString "," = [CodePoint.ofChar ','] from rfl, List.singleton_append,
        skipBlanks_of_opens ⟨rfl, by decide⟩]
      dsimp only
      rw [if_neg (by decide), if_neg (by simp), skipBlanks_newline, hhead,
        skipBlanks_of_opens hopens, ← hhead, htail]

theorem quoted_append (s rest : Text) : quoted s ++ rest
    = CodePoint.ofChar '"' :: (s.flatMap escaped ++ (Text.ofString "\"" ++ rest)) := by
  unfold quoted
  rw [List.append_assoc, List.append_assoc]
  rfl

/-- Reading members goes on after the value of the first one. -/
theorem readMembers_member [Limits] {bound room : ℕ} {name t after : Text} {value : Json}
    (h : readValue bound room t = .ok (value, after)) :
    readMembers (bound + 1) room (quoted name ++ (Text.ofString ": " ++ t)) =
      match skipBlanks after with
      | [] => fail .expectedComma []
      | d :: more =>
          if d.val = 0x7d then .ok ([(name, value)], more)
          else if d ≠ CodePoint.ofChar ',' then fail .expectedComma (d :: more)
          else match readMembers bound room (skipBlanks more) with
            | .error e => .error e
            | .ok (members, left) => .ok ((name, value) :: members, left) := by
  have hcolon : skipBlanks (Text.ofString ": " ++ t)
      = CodePoint.ofChar ':' :: (CodePoint.ofChar ' ' :: t) :=
    skipBlanks_of_opens ⟨rfl, by decide⟩ _
  have hspace : skipBlanks (CodePoint.ofChar ' ' :: t) = t :=
    (List.dropWhile_cons_of_pos rfl).trans (skipBlanks_of_readValue h)
  rw [quoted_append, readMembers, if_neg (by simp), readString_quoted]
  dsimp only
  rw [hcolon]
  dsimp only
  rw [if_neg (by simp), hspace, h]
  dsimp only
  cases skipBlanks after <;> rfl

theorem readMembers_pretty [Limits] {room : ℕ} (level bound : ℕ) (rest name : Text) (value : Json)
    {members : List (Text × Json)} (hvalue : ReadsBack room value)
    (hmembers : ∀ member ∈ members, ReadsBack room member.2)
    (hbound : 2 * (prettyOnto (level + 1) (prettyMembers (level + 1)
      (newline level ++ (Text.ofString "\x7d" ++ rest)) members) value).length + 1
        ≤ bound + 2 * rest.length) :
    readMembers bound room (quoted name ++ (Text.ofString ": " ++ prettyOnto (level + 1)
      (prettyMembers (level + 1) (newline level ++ (Text.ofString "\x7d" ++ rest)) members) value))
      = .ok ((name, value) :: members, rest) := by
  have hclose := delimited_newline level (Text.ofString "\x7d" ++ rest)
  induction members generalizing name value bound with
  | nil =>
      rw [prettyMembers] at hbound ⊢
      have hlength := length_lt_prettyOnto (level + 1)
        (newline level ++ (Text.ofString "\x7d" ++ rest)) value
      rw [List.length_append, List.length_append] at hlength
      obtain ⟨bound, rfl⟩ := Nat.exists_eq_succ_of_ne_zero (n := bound) (by omega)
      have hread := hvalue (level + 1) bound _ hclose (by
        simp only [List.length_append]
        omega)
      rw [readMembers_member hread, skipBlanks_newline]
      rfl
  | cons next members ih =>
      obtain ⟨nextName, nextValue⟩ := next
      have hlength := length_lt_prettyOnto (level + 1) (prettyMembers (level + 1)
        (newline level ++ (Text.ofString "\x7d" ++ rest)) ((nextName, nextValue) :: members)) value
      have hnext := length_lt_prettyOnto (level + 1) (prettyMembers (level + 1)
        (newline level ++ (Text.ofString "\x7d" ++ rest)) members) nextValue
      have hrest := length_le_prettyMembers (level + 1)
        (newline level ++ (Text.ofString "\x7d" ++ rest)) members
      have hmore := delimited_prettyMembers (level + 1) hclose ((nextName, nextValue) :: members)
      rw [prettyMembers] at hlength hmore hbound ⊢
      simp only [List.length_append] at hlength hrest
      obtain ⟨bound, rfl⟩ := Nat.exists_eq_succ_of_ne_zero (n := bound) (by omega)
      have hread := hvalue (level + 1) bound _ hmore (by
        simp only [List.length_append]
        omega)
      have htail := ih bound nextName nextValue (hmembers _ List.mem_cons_self)
        (fun other hother => hmembers other (List.mem_cons_of_mem _ hother)) (by omega)
      have hquote : ∀ t, skipBlanks (quoted nextName ++ t) = quoted nextName ++ t := by
        intro t
        rw [quoted_append]
        exact skipBlanks_of_opens ⟨rfl, by decide⟩ _
      rw [readMembers_member hread, show Text.ofString "," = [CodePoint.ofChar ','] from rfl,
        List.singleton_append, skipBlanks_of_opens ⟨rfl, by decide⟩]
      dsimp only
      rw [if_neg (by decide), if_neg (by simp), skipBlanks_newline, hquote, htail]

theorem readValue_of_readNumber [Limits] {bound room : ℕ} {t : Text} {result : Json × Text}
    (h : readNumber t = .ok result) : readValue (bound + 1) room t = .ok result := by
  have hconstant := readConstant?_of_readNumber h
  obtain ⟨c, rest, hc, ht⟩ := head_of_readNumber h
  have hfirst : ∃ first more, t = first :: more ∧ (first = CodePoint.ofChar '-' ∨
      first.isDigit = true) := by
    rcases ht with rfl | rfl
    · exact ⟨c, rest, rfl, Or.inr hc⟩
    · exact ⟨_, c :: rest, rfl, Or.inl rfl⟩
  obtain ⟨first, more, rfl, hfirst⟩ := hfirst
  have hne : ∀ d : CodePoint, d ≠ CodePoint.ofChar '-' → d.isDigit = false → first ≠ d := by
    rintro d hminus hdigit rfl
    rcases hfirst with hfirst | hfirst
    · exact hminus hfirst
    · rw [hdigit] at hfirst
      contradiction
  have hbrace : first.val ≠ 0x7b := fun hval =>
    hne (CodePoint.ofNat 0x7b) (by decide) rfl (Fin.ext hval)
  unfold readValue
  rw [if_neg (hne _ (by decide) rfl), if_neg hbrace, if_neg (hne _ (by decide) rfl), hconstant]
  exact h

theorem readValue_constant [Limits] {bound room : ℕ} {word rest : Text} {value : Json}
    (hpair : (word, value) ∈ constants) :
    readValue (bound + 1) room (word ++ rest) = .ok (value, rest) := by
  simp only [constants, List.mem_cons, List.not_mem_nil, or_false, Prod.mk.injEq] at hpair
  rcases hpair with ⟨rfl, rfl⟩ | ⟨rfl, rfl⟩ | ⟨rfl, rfl⟩ | ⟨rfl, rfl⟩ | ⟨rfl, rfl⟩ | ⟨rfl, rfl⟩ <;>
    rfl

theorem readsBack_real [Limits] {room : ℕ} {x : Binary64}
    (h : x.shape = .notANumber → x = Binary64.nan) :
    ReadsBack room (.real x) := by
  refine readsBack_of_succ fun level bound rest hrest _ => ?_
  rw [prettyOnto]
  cases hx : x.shape with
  | finite negative mantissa exponent =>
      exact readValue_of_readNumber (readNumber_realText hx hrest)
  | infinite negative =>
      have htext : realText x = if negative then Text.ofString "-Infinity"
          else Text.ofString "Infinity" := by
        unfold realText
        rw [hx]
      rw [htext, Binary64.eq_infinity_of_shape hx]
      cases negative with
      | true => exact readValue_constant (by simp [constants])
      | false => exact readValue_constant (by simp [constants])
  | notANumber =>
      have htext : realText x = Text.ofString "NaN" := by
        unfold realText
        rw [hx]
      rw [htext, h hx]
      exact readValue_constant (by simp [constants])

theorem readsBack_arr [Limits] {room : ℕ} {items : List Json}
    (h : ∀ item ∈ items, ReadsBack room item) :
    ReadsBack (room + 1) (.arr items) := by
  refine readsBack_of_succ fun level bound rest hrest hbound => ?_
  cases items with
  | nil =>
      rw [prettyOnto]
      rfl
  | cons item items =>
      rw [prettyOnto] at hbound ⊢
      simp only [List.length_append, show (Text.ofString "[").length = 1 from rfl] at hbound
      have hread := readItems_pretty level bound rest (h item List.mem_cons_self)
        (fun other hother => h other (List.mem_cons_of_mem item hother))
        (by omega)
      obtain ⟨c, more, hhead, hopens⟩ := head_of_readItems hread
      rw [hhead] at hread ⊢
      rw [show Text.ofString "[" = [CodePoint.ofChar '['] from rfl, List.singleton_append]
      unfold readValue
      rw [if_neg (by decide), if_neg (by decide), if_pos rfl, skipBlanks_newline,
        skipBlanks_of_opens hopens]
      dsimp only
      rw [if_neg hopens.2, hread]

theorem readsBack_obj [Limits] {room : ℕ} {members : List (Text × Json)}
    (hnames : (Assoc.names members).Nodup) (h : ∀ member ∈ members, ReadsBack room member.2) :
    ReadsBack (room + 1) (.obj members) := by
  refine readsBack_of_succ fun level bound rest hrest hbound => ?_
  cases members with
  | nil =>
      rw [prettyOnto]
      rfl
  | cons member members =>
      obtain ⟨name, value⟩ := member
      rw [prettyOnto] at hbound ⊢
      simp only [List.length_append, show (Text.ofString "\x7b").length = 1 from rfl] at hbound
      have hread := readMembers_pretty level bound rest name value (h _ List.mem_cons_self)
        (fun other hother => h other (List.mem_cons_of_mem _ hother)) (by omega)
      rw [quoted_append] at hread ⊢
      rw [show Text.ofString "\x7b" = [CodePoint.ofNat 0x7b] from rfl, List.singleton_append]
      unfold readValue
      rw [if_neg (by decide), if_pos (show (CodePoint.ofNat 0x7b).val = 0x7b from rfl),
        skipBlanks_newline, skipBlanks_of_opens ⟨rfl, by decide⟩]
      dsimp only
      rw [if_neg (by decide), hread]
      dsimp only
      rw [Assoc.ofList_eq_self hnames]

/-- The written form of a readable value is read as that value. -/
theorem Readable.readsBack [Limits] {room : ℕ} {value : Json} (h : Readable room value) :
    ReadsBack room value := by
  induction h with
  | null =>
      refine readsBack_of_succ fun level bound rest hrest _ => ?_
      rw [prettyOnto]
      exact readValue_constant (by simp [constants])
  | bool b =>
      refine readsBack_of_succ fun level bound rest hrest _ => ?_
      rw [prettyOnto]
      cases b with
      | true => exact readValue_constant (by simp [constants])
      | false => exact readValue_constant (by simp [constants])
  | int h =>
      refine readsBack_of_succ fun level bound rest hrest _ => ?_
      rw [prettyOnto]
      exact readValue_of_readNumber (readNumber_signed hrest h)
  | real h => exact readsBack_real h
  | str s =>
      refine readsBack_of_succ fun level bound rest hrest _ => ?_
      rw [prettyOnto, quoted_append]
      unfold readValue
      rw [if_pos rfl, readString_quoted]
  | arr h ih => exact readsBack_arr ih
  | obj hnames h ih => exact readsBack_obj hnames ih

/-! ## What the reader returns -/

theorem isDigit_of_mem_whole {t whole rest : Text} (h : readWhole? t = some (whole, rest)) :
    ∀ c ∈ whole, c.isDigit = true := by
  cases t with
  | nil => contradiction
  | cons c more =>
      unfold readWhole? at h
      dsimp only at h
      split_ifs at h with hzero hdigit
      · obtain ⟨rfl, -⟩ := Prod.mk.inj (Option.some.inj h)
        intro d hd
        rw [List.mem_singleton.mp hd, hzero]
        rfl
      · obtain ⟨rfl, -⟩ := Prod.mk.inj (Option.some.inj h)
        exact List.all_eq_true.mp List.all_takeWhile

theorem value_lt_of_isDigit {digits : Text} (h : ∀ c ∈ digits, c.isDigit = true) :
    Numeral.value digits < 10 ^ digits.length := by
  induction digits with
  | nil => simp [Numeral.value]
  | cons c rest ih =>
      have hrest := ih fun d hd => h d (List.mem_cons_of_mem c hd)
      have hc := h c List.mem_cons_self
      simp only [CodePoint.isDigit, Bool.and_eq_true, decide_eq_true_eq] at hc
      have hfirst : Numeral.value [c] ≤ 9 := by
        simp only [Numeral.value, List.foldl_cons, List.foldl_nil]
        omega
      have hscaled := Nat.mul_le_mul_right (10 ^ rest.length) hfirst
      rw [← List.singleton_append, Numeral.value_append, List.length_append, pow_add]
      simp only [List.length_singleton, pow_one]
      omega

/-- The digits of a number that was read are no more than were read. -/
theorem length_decimal_value_le {digits : Text} (h : ∀ c ∈ digits, c.isDigit = true)
    (hne : digits ≠ []) : (Numeral.decimal (Numeral.value digits)).length ≤ digits.length := by
  rcases Nat.eq_zero_or_pos (Numeral.value digits) with hzero | hpos
  · rw [hzero, Numeral.decimal, if_pos (by norm_num)]
    exact List.length_pos_of_ne_nil hne
  · obtain ⟨k, hk, hlow, -⟩ := Numeral.length_decimal_spec hpos
    have hlt : 10 ^ k < 10 ^ digits.length := lt_of_le_of_lt hlow (value_lt_of_isDigit h)
    rw [Nat.pow_lt_pow_iff_right (by norm_num)] at hlt
    omega

theorem ne_nil_of_readWhole? {t whole rest : Text} (h : readWhole? t = some (whole, rest)) :
    whole ≠ [] := by
  obtain ⟨c, more, rfl, hc⟩ := isDigit_of_readWhole? h
  unfold readWhole? at h
  dsimp only at h
  split_ifs at h with hzero
  · obtain ⟨rfl, -⟩ := Prod.mk.inj (Option.some.inj h)
    simp
  · obtain ⟨rfl, -⟩ := Prod.mk.inj (Option.some.inj h)
    simp [hc]

theorem shape_ofDecimal (negative : Bool) (digits : ℕ) (exponent : ℤ) :
    (Binary64.ofDecimal negative digits exponent).shape ≠ .notANumber := by
  obtain ⟨c, hc, hread⟩ := Binary64.exists_ofDecimal_eq digits exponent
  rw [hread]
  exact Binary64.shape_signed_ne_notANumber hc

theorem readable_of_readNumber [Limits] {room : ℕ} {t rest : Text} {value : Json}
    (h : readNumber t = .ok (value, rest)) : Readable room value := by
  obtain ⟨negative, body, whole, after, -, hwhole, ⟨-, -, hlength, rfl, -⟩ |
    ⟨fraction, exponent, -, -, -, rfl, -⟩⟩ := readNumber_cases h
  · have hdecimal := length_decimal_value_le (isDigit_of_mem_whole hwhole)
      (ne_nil_of_readWhole? hwhole)
    refine .int ?_
    rw [apply_ite Int.natAbs, Int.natAbs_neg, ite_self, Int.natAbs_natCast]
    omega
  · exact .real fun hnan => absurd hnan (shape_ofDecimal _ _ _)

theorem readable_of_readConstant? [Limits] {room : ℕ} {t rest : Text} {value : Json}
    (h : readConstant? t = some (value, rest)) : Readable room value := by
  obtain ⟨pair, hpair, hfound⟩ := List.exists_of_findSome?_eq_some h
  dsimp only at hfound
  split_ifs at hfound
  obtain ⟨rfl, -⟩ := Prod.mk.inj (Option.some.inj hfound)
  simp only [constants, List.mem_cons, List.not_mem_nil, or_false] at hpair
  rcases hpair with rfl | rfl | rfl | rfl | rfl | rfl
  · exact .null
  · exact .bool true
  · exact .bool false
  · exact .real fun _ => rfl
  · exact .real fun hnan => absurd hnan (Binary64.shape_signed_ne_notANumber (le_refl _))
  · exact .real fun hnan => absurd hnan (Binary64.shape_signed_ne_notANumber (le_refl _))

/-- What one call of the value reader returns is readable if what it reads inside is. -/
theorem readable_of_readValue_succ [Limits] {bound room : ℕ} {t rest : Text} {value : Json}
    (hmembers : ∀ room t members rest, readMembers bound room t = .ok (members, rest) →
      ∀ member ∈ members, Readable room member.2)
    (hitems : ∀ room t items rest, readItems bound room t = .ok (items, rest) →
      ∀ item ∈ items, Readable room item)
    (h : readValue (bound + 1) room t = .ok (value, rest)) : Readable room value := by
  cases t with
  | nil => contradiction
  | cons c more =>
      unfold readValue at h
      split_ifs at h with hquote hbrace hbracket
      · split at h
        · contradiction
        · obtain ⟨rfl, -⟩ := Prod.mk.inj (Except.ok.inj h)
          exact .str _
      · split at h
        · contradiction
        · contradiction
        · split_ifs at h
          · obtain ⟨rfl, -⟩ := Prod.mk.inj (Except.ok.inj h)
            exact .obj List.nodup_nil (by simp)
          · split at h
            · contradiction
            · rename_i members left hread
              obtain ⟨rfl, -⟩ := Prod.mk.inj (Except.ok.inj h)
              obtain ⟨hnodup, hsubset⟩ := Assoc.ofList_spec members
              exact .obj hnodup fun member hmember =>
                hmembers _ _ _ _ hread member (hsubset member hmember)
      · split at h
        · contradiction
        · contradiction
        · split_ifs at h
          · obtain ⟨rfl, -⟩ := Prod.mk.inj (Except.ok.inj h)
            exact .arr (by simp)
          · split at h
            · contradiction
            · rename_i items left hread
              obtain ⟨rfl, -⟩ := Prod.mk.inj (Except.ok.inj h)
              exact .arr (hitems _ _ _ _ hread)
      · split at h
        · rename_i found hfound
          obtain rfl := Except.ok.inj h
          exact readable_of_readConstant? hfound
        · exact readable_of_readNumber h

theorem readable_of_readMembers_succ [Limits] {bound room : ℕ} {t rest : Text}
    {members : List (Text × Json)}
    (hvalue : ∀ room t value rest, readValue bound room t = .ok (value, rest) → Readable room value)
    (hmembers : ∀ room t members rest, readMembers bound room t = .ok (members, rest) →
      ∀ member ∈ members, Readable room member.2)
    (h : readMembers (bound + 1) room t = .ok (members, rest)) :
    ∀ member ∈ members, Readable room member.2 := by
  cases t with
  | nil => contradiction
  | cons c more =>
      rw [readMembers] at h
      dsimp only at h
      split at h
      · contradiction
      split at h
      · contradiction
      split at h
      · contradiction
      split at h
      · contradiction
      split at h
      · contradiction
      rename_i value afterValue hread
      have hfirst := hvalue _ _ _ _ hread
      split at h
      · contradiction
      split at h
      · obtain ⟨rfl, -⟩ := Prod.mk.inj (Except.ok.inj h)
        simpa using hfirst
      split at h
      · contradiction
      split at h
      · contradiction
      rename_i others left hothers
      obtain ⟨rfl, -⟩ := Prod.mk.inj (Except.ok.inj h)
      exact List.forall_mem_cons.mpr ⟨hfirst, hmembers _ _ _ _ hothers⟩

theorem readable_of_readItems_succ [Limits] {bound room : ℕ} {t rest : Text} {items : List Json}
    (hvalue : ∀ room t value rest, readValue bound room t = .ok (value, rest) → Readable room value)
    (hitems : ∀ room t items rest, readItems bound room t = .ok (items, rest) →
      ∀ item ∈ items, Readable room item)
    (h : readItems (bound + 1) room t = .ok (items, rest)) :
    ∀ item ∈ items, Readable room item := by
  rw [readItems] at h
  dsimp only at h
  split at h
  · contradiction
  rename_i item afterItem hread
  have hfirst := hvalue _ _ _ _ hread
  split at h
  · contradiction
  split at h
  · obtain ⟨rfl, -⟩ := Prod.mk.inj (Except.ok.inj h)
    simpa using hfirst
  split at h
  · contradiction
  split at h
  · contradiction
  rename_i others left hothers
  obtain ⟨rfl, -⟩ := Prod.mk.inj (Except.ok.inj h)
  exact List.forall_mem_cons.mpr ⟨hfirst, hitems _ _ _ _ hothers⟩

/-- Whatever the reader returns is readable.  The induction is on the bound of nested calls, for
values, members and items at once. -/
theorem readable_of_bound [Limits] (bound : ℕ) :
    (∀ room t value rest, readValue bound room t = .ok (value, rest) → Readable room value) ∧
    (∀ room t members rest, readMembers bound room t = .ok (members, rest) →
      ∀ member ∈ members, Readable room member.2) ∧
    (∀ room t items rest, readItems bound room t = .ok (items, rest) →
      ∀ item ∈ items, Readable room item) := by
  induction bound with
  | zero =>
      refine ⟨?_, ?_, ?_⟩
      · intro room t value rest h
        cases t <;> contradiction
      · intro room t members rest h
        cases t <;> contradiction
      · intro room t items rest h
        contradiction
  | succ bound ih =>
      obtain ⟨hvalue, hmembers, hitems⟩ := ih
      exact ⟨fun _ _ _ _ => readable_of_readValue_succ hmembers hitems,
        fun _ _ _ _ => readable_of_readMembers_succ hvalue hmembers,
        fun _ _ _ _ => readable_of_readItems_succ hvalue hitems⟩

theorem readable_of_readWithin [Limits] {room : ℕ} {text : Text} {value : Json}
    (h : readWithin room text = .ok value) : Readable room value := by
  unfold readWithin at h
  dsimp only at h
  split at h
  · contradiction
  split at h
  · contradiction
  split at h
  · contradiction
  rename_i found left hread
  split at h
  · obtain rfl := Except.ok.inj h
    exact (readable_of_bound _).1 _ _ _ _ hread
  · contradiction

/-- A written object begins with a brace. -/
theorem prettyOnto_obj (level : ℕ) (rest : Text) (members : List (Text × Json)) :
    ∃ more, prettyOnto level rest (.obj members) = CodePoint.ofNat 0x7b :: more := by
  cases members with
  | nil => exact ⟨_, by rw [prettyOnto]; rfl⟩
  | cons member members => exact ⟨_, by rw [prettyOnto]; rfl⟩

/-- Reading a written document gives the document, if nothing but blanks follow it. -/
theorem readWithin_prettyOnto [Limits] {room : ℕ} {members : List (Text × Json)}
    (h : Readable room (.obj members)) {rest : Text} (hrest : Delimited rest)
    (hblank : skipBlanks rest = []) :
    readWithin room (prettyOnto 0 rest (.obj members)) = .ok (.obj members) := by
  have hread : ∀ bound, 2 * (prettyOnto 0 rest (.obj members)).length ≤ bound →
      readValue bound room (prettyOnto 0 rest (.obj members)) = .ok (.obj members, rest) :=
    fun bound hbound => h.readsBack 0 bound rest hrest (by omega)
  obtain ⟨more, hmore⟩ := prettyOnto_obj 0 rest members
  rw [hmore] at hread ⊢
  unfold readWithin
  dsimp only
  rw [if_neg (by decide), skipBlanks_of_opens ⟨rfl, by decide⟩, hread _ (by omega)]
  dsimp only
  rw [hblank]
  rfl

end MessageKeys.Json
