import MessageKeys.Proofs.Json.RoundTrip

/-!
# Values on one line

The form of an object on one line is read as that object (`readWithin_compact`) if the values of
its members are, and it holds no newline (`newline_not_mem_compact`) if they hold none.  Values
other than arrays and objects are written alike on one line and indented, so what is known of the
indented form carries over (`ReadsBack.onLine`).
-/

namespace MessageKeys.Json

/-! ## Reading a line -/

/-- The form of a value on one line is read as that value wherever it stands. -/
def ReadsOnLine [Limits] (room : ℕ) (value : Json) : Prop :=
  ∀ (bound : ℕ) (rest : Text), Delimited rest → 2 * (compact value).length ≤ bound →
    readValue bound room (compact value ++ rest) = .ok (value, rest)

theorem ReadsBack.onLine [Limits] {room : ℕ} {value : Json} (h : ReadsBack room value)
    (hsame : ∀ rest, prettyOnto 0 rest value = compact value ++ rest) : ReadsOnLine room value := by
  intro bound rest hrest hbound
  have hread := h 0 bound rest hrest (by
    rw [hsame, List.length_append]
    omega)
  rwa [hsame] at hread

theorem readsOnLine_str [Limits] (room : ℕ) (s : Text) : ReadsOnLine room (.str s) :=
  (Readable.str s).readsBack.onLine fun rest => by rw [prettyOnto, compact]

theorem readsOnLine_int [Limits] (room : ℕ) {n : ℤ}
    (h : (Numeral.decimal n.natAbs).length ≤ Limits.digits) :
    ReadsOnLine room (.int n) :=
  (Readable.int h).readsBack.onLine fun rest => by rw [prettyOnto, compact]

theorem delimited_compactMembers (members : List (Text × Json)) (rest : Text) :
    Delimited (compactMembers members ++ (Text.ofString "\x7d" ++ rest)) := by
  intro c hc
  cases members with
  | nil =>
      rw [compactMembers] at hc
      rw [← Option.some.inj hc]
      decide
  | cons member members =>
      rw [compactMembers] at hc
      rw [← Option.some.inj hc]
      decide

theorem skipBlanks_space_quoted (name rest : Text) :
    skipBlanks (CodePoint.ofChar ' ' :: (quoted name ++ rest)) = quoted name ++ rest := by
  rw [quoted_append]
  exact (List.dropWhile_cons_of_pos rfl).trans (skipBlanks_of_opens ⟨rfl, by decide⟩ _)

theorem readMembers_compact [Limits] {room : ℕ} (bound : ℕ) (name : Text) {value : Json}
    {members : List (Text × Json)} (rest : Text) (hvalue : ReadsOnLine room value)
    (hmembers : ∀ member ∈ members, ReadsOnLine room member.2)
    (hbound : 2 * ((compact value).length + (compactMembers members).length) + 1 ≤ bound) :
    readMembers bound room (quoted name ++ (Text.ofString ": " ++ (compact value ++
      (compactMembers members ++ (Text.ofString "\x7d" ++ rest))))) =
        .ok ((name, value) :: members, rest) := by
  induction members generalizing name value bound with
  | nil =>
      obtain ⟨bound, rfl⟩ := Nat.exists_eq_succ_of_ne_zero (n := bound) (by omega)
      have hread := hvalue bound _ (delimited_compactMembers [] rest) (by omega)
      rw [readMembers_member hread]
      rfl
  | cons next members ih =>
      obtain ⟨nextName, nextValue⟩ := next
      obtain ⟨bound, rfl⟩ := Nat.exists_eq_succ_of_ne_zero (n := bound) (by omega)
      have hread := hvalue bound _
        (delimited_compactMembers ((nextName, nextValue) :: members) rest) (by omega)
      have hlength : (compactMembers ((nextName, nextValue) :: members)).length =
          (Text.ofString ", ").length + (quoted nextName).length + (Text.ofString ": ").length +
            (compact nextValue).length + (compactMembers members).length := by
        rw [compactMembers]
        simp only [List.length_append]
      have hnextValue : ReadsOnLine room nextValue := hmembers _ List.mem_cons_self
      have htail := ih bound nextName hnextValue
        (fun other hother => hmembers other (List.mem_cons_of_mem _ hother)) (by
          rw [hlength] at hbound
          simp only [show (Text.ofString ", ").length = 2 from rfl] at hbound
          omega)
      have hnext : skipBlanks (compactMembers ((nextName, nextValue) :: members) ++
          (Text.ofString "\x7d" ++ rest)) = CodePoint.ofChar ',' :: (CodePoint.ofChar ' ' ::
            (quoted nextName ++ (Text.ofString ": " ++ (compact nextValue ++
              (compactMembers members ++ (Text.ofString "\x7d" ++ rest)))))) := by
        rw [compactMembers]
        simp only [List.append_assoc]
        exact skipBlanks_of_opens ⟨rfl, by decide⟩ _
      rw [readMembers_member hread, hnext]
      dsimp only
      rw [if_neg (by decide), if_neg (by simp), skipBlanks_space_quoted, htail]

theorem readsOnLine_obj [Limits] {room : ℕ} {members : List (Text × Json)}
    (hnames : (Assoc.names members).Nodup) (h : ∀ member ∈ members, ReadsOnLine room member.2) :
    ReadsOnLine (room + 1) (.obj members) := by
  intro bound rest _ hbound
  cases members with
  | nil =>
      rw [compact] at hbound ⊢
      obtain ⟨bound, rfl⟩ := Nat.exists_eq_succ_of_ne_zero (n := bound) (by
        simp only [show (Text.ofString "\x7b\x7d").length = 2 from rfl] at hbound
        omega)
      rfl
  | cons member members =>
      obtain ⟨name, value⟩ := member
      rw [compact] at hbound ⊢
      simp only [List.length_append, show (Text.ofString "\x7b").length = 1 from rfl] at hbound
      obtain ⟨bound, rfl⟩ := Nat.exists_eq_succ_of_ne_zero (n := bound) (by omega)
      have hvalue : ReadsOnLine room value := h _ List.mem_cons_self
      have hread := readMembers_compact bound name rest hvalue
        (fun other hother => h other (List.mem_cons_of_mem _ hother)) (by omega)
      simp only [List.append_assoc]
      rw [quoted_append] at hread ⊢
      rw [show Text.ofString "\x7b" = [CodePoint.ofNat 0x7b] from rfl, List.singleton_append]
      unfold readValue
      rw [if_neg (by decide), if_pos (show (CodePoint.ofNat 0x7b).val = 0x7b from rfl),
        skipBlanks_of_opens ⟨rfl, by decide⟩]
      dsimp only
      rw [if_neg (by decide), hread]
      dsimp only
      rw [Assoc.ofList_eq_self hnames]

/-- Reading an object on one line gives the object. -/
theorem readWithin_compact [Limits] {room : ℕ} {members : List (Text × Json)}
    (hnames : (Assoc.names members).Nodup) (h : ∀ member ∈ members, ReadsOnLine room member.2) :
    readWithin (room + 1) (compact (.obj members)) = .ok (.obj members) := by
  have hread := readsOnLine_obj hnames h (2 * (compact (.obj members)).length + 2) []
    delimited_nil (by omega)
  rw [List.append_nil] at hread
  have hbrace : ∃ more, compact (.obj members) = CodePoint.ofNat 0x7b :: more := by
    cases members with
    | nil => exact ⟨_, by rw [compact]; rfl⟩
    | cons member members => exact ⟨_, by rw [compact]; rfl⟩
  obtain ⟨more, hmore⟩ := hbrace
  rw [hmore] at hread ⊢
  unfold readWithin
  dsimp only
  rw [if_neg (by decide), skipBlanks_of_opens ⟨rfl, by decide⟩, hread]
  rfl

/-! ## No newline -/

theorem newline_not_mem_escaped (c : CodePoint) : CodePoint.ofChar '\n' ∉ escaped c := by
  have hcontrol : ∀ n < 0x20, CodePoint.ofChar '\n' ∉ Text.ofString "\\u" ++ Numeral.hex 4 n := by
    decide
  unfold escaped
  split_ifs with hquote hslash hnewline hreturn htab hback hfeed hsmall
  · decide
  · decide
  · decide
  · decide
  · decide
  · decide
  · decide
  · exact hcontrol c.val hsmall
  · rw [List.mem_singleton]
    exact fun heq => hnewline heq.symm

theorem newline_not_mem_quoted (s : Text) : CodePoint.ofChar '\n' ∉ quoted s := by
  have hquote : CodePoint.ofChar '\n' ∉ Text.ofString "\"" := by decide
  simp only [quoted, List.mem_append, List.mem_flatMap, not_or]
  refine ⟨⟨hquote, ?_⟩, hquote⟩
  rintro ⟨c, -, hc⟩
  exact newline_not_mem_escaped c hc

theorem newline_not_mem_signed (n : ℤ) : CodePoint.ofChar '\n' ∉ Numeral.signed n := by
  rw [signed_eq, List.mem_append, not_or]
  constructor
  · cases decide (n < 0) <;> decide
  · exact fun h => absurd (Numeral.all_isDigit_decimal _ _ h) (by decide)

theorem newline_not_mem_compactMembers {members : List (Text × Json)}
    (h : ∀ member ∈ members, CodePoint.ofChar '\n' ∉ compact member.2) :
    CodePoint.ofChar '\n' ∉ compactMembers members := by
  have hcomma : CodePoint.ofChar '\n' ∉ Text.ofString ", " := by decide
  have hcolon : CodePoint.ofChar '\n' ∉ Text.ofString ": " := by decide
  induction members with
  | nil => simp [compactMembers]
  | cons member members ih =>
      obtain ⟨name, value⟩ := member
      obtain ⟨hvalue, hmembers⟩ := List.forall_mem_cons.mp h
      simp only [compactMembers, List.mem_append, not_or]
      exact ⟨⟨⟨⟨hcomma, newline_not_mem_quoted name⟩, hcolon⟩, hvalue⟩, ih hmembers⟩

/-- An object on one line takes no more than the line. -/
theorem newline_not_mem_compact {members : List (Text × Json)}
    (h : ∀ member ∈ members, CodePoint.ofChar '\n' ∉ compact member.2) :
    CodePoint.ofChar '\n' ∉ compact (.obj members) := by
  have hopen : CodePoint.ofChar '\n' ∉ Text.ofString "\x7b" := by decide
  have hclose : CodePoint.ofChar '\n' ∉ Text.ofString "\x7d" := by decide
  have hcolon : CodePoint.ofChar '\n' ∉ Text.ofString ": " := by decide
  cases members with
  | nil =>
      rw [compact]
      decide
  | cons member members =>
      obtain ⟨name, value⟩ := member
      obtain ⟨hvalue, hmembers⟩ := List.forall_mem_cons.mp h
      simp only [compact, List.mem_append, not_or]
      exact ⟨⟨⟨⟨⟨hopen, newline_not_mem_quoted name⟩, hcolon⟩, hvalue⟩,
        newline_not_mem_compactMembers hmembers⟩, hclose⟩

end MessageKeys.Json
