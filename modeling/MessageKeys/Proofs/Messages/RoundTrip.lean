import MessageKeys.Proofs.Files.Writing
import MessageKeys.Proofs.Json.Limits
import MessageKeys.Proofs.Messages.Isolation

/-!
# Written documents

A document of texts that can be encoded, whole numbers and objects with distinct names is the same
when it is read again where it was written, with its nesting and the order of its members, exactly
within the limits: it is nested no deeper than the writer and the reader go, and no number has more
digits than they take (`readMessages_writeMessages_iff`).  A document that is beyond the limits of
the writer is not written at all, so a number may be too long to come back (`long_integer_lost`).

Reading makes every line end a newline, but no text of a document is changed by that: the writer
escapes line ends inside of texts, and puts down newlines only.
-/

namespace MessageKeys

theorem Numeral.lt_length_decimal_pow (m : ℕ) : m < (Numeral.decimal (10 ^ m)).length := by
  obtain ⟨k, hk, -, hhigh⟩ := length_decimal_spec (Nat.pow_pos (n := m) (by norm_num : 0 < 10))
  rw [Nat.pow_lt_pow_iff_right (by norm_num)] at hhigh
  omega

namespace FileSystem

section

variable [Json.Limits] {fs : FileSystem} {path : Path} {document : Document}

/-- The levels and the numbers of a document that was read. -/
theorem limits_of_readMessages (h : fs.readMessages path = .ok document) :
    Json.depth (.obj document) ≤ Json.Limits.readDepth ∧
      Json.ShortIntegers (Json.values (.obj document)) := by
  obtain ⟨-, f, -, hdecode⟩ := readMessages_eq_ok_iff.mp h
  have hloadable := Document.loadable_of_decode hdecode
  exact ⟨(Json.readable_iff.mp hloadable).1, hloadable.shortIntegers⟩

/-- What is beyond the limits of the writer is refused before the file is looked for. -/
theorem writeMessages_refused (fs : FileSystem) (path : Path)
    (h : ¬(Json.depth (.obj document) ≤ Json.Limits.writeDepth ∧
      Json.ShortIntegers (Json.values (.obj document)))) :
    ∃ refusal, fs.writeMessages path document = (fs, some (.refused refusal)) := by
  cases htext : document.text? with
  | ok text => exact absurd (Document.text?_eq_ok_iff.mp htext).1 h
  | error refusal =>
      refine ⟨refusal, ?_⟩
      unfold writeMessages
      rw [htext]

/-- A document that has a text is written as such, unless the file is at fault. -/
theorem writeMessages_of_text {place : AbsolutePath} (hplace : fs.writable path = .ok place)
    (hfault : fs.fault? place = none) (htext : document.text? = .ok document.render)
    {bytes : Bytes} (hbytes : Utf8.encode? document.render = some bytes) :
    fs.writeMessages path document = (fs.overwrite place bytes, none) := by
  unfold writeMessages writeText
  rw [htext]
  dsimp only
  rw [hplace]
  dsimp only
  rw [hfault, hbytes]

/-- A document of encodable texts, whole numbers and distinct names is read as it was written
exactly within the limits of the writer and the reader.  If the writer refuses it, no file changes.
-/
theorem readMessages_writeMessages_iff (hwritable : fs.Writable path)
    (hfault : ∀ place, fs.writable path = .ok place → fs.fault? place = none)
    (htexts : document.hasSurrogate = false)
    (hwhole : ∀ x, Json.real x ∉ Json.values (.obj document))
    (hnames : ∀ members, Json.obj members ∈ Json.values (.obj document) →
      (Assoc.names members).Nodup) :
    ((∃ after, fs.writeMessages path document = (after, none) ∧
        after.readMessages path = .ok document) ↔
      Json.depth (.obj document) ≤ Json.Limits.writeDepth ∧
        Json.depth (.obj document) ≤ Json.Limits.readDepth ∧
        ∀ n, Json.int n ∈ Json.values (.obj document) →
          (Numeral.decimal n.natAbs).length ≤ Json.Limits.digits) ∧
    (¬(Json.depth (.obj document) ≤ Json.Limits.writeDepth ∧
        ∀ n, Json.int n ∈ Json.values (.obj document) →
          (Numeral.decimal n.natAbs).length ≤ Json.Limits.digits) →
      ∃ refusal, fs.writeMessages path document = (fs, some (.refused refusal))) := by
  refine ⟨⟨?_, ?_⟩, writeMessages_refused fs path⟩
  · rintro ⟨after, hwrite, hread⟩
    obtain ⟨hdepth, hdigits⟩ := limits_of_readMessages hread
    refine ⟨?_, hdepth, hdigits⟩
    by_contra hdeep
    obtain ⟨refusal, hrefused⟩ := writeMessages_refused fs path fun h => hdeep h.1
    rw [hrefused] at hwrite
    cases (Prod.mk.inj hwrite).2
  · rintro ⟨hwriteDepth, hdepth, hdigits⟩
    have hloadable : document.Loadable := by
      refine Json.readable_iff.mpr ⟨hdepth, fun inner hinner => ?_⟩
      cases inner with
      | int n => exact hdigits n hinner
      | real x => exact absurd hinner (hwhole x)
      | obj members => exact hnames members hinner
      | null | bool _ | str _ | arr _ => trivial
    obtain ⟨bytes, hbytes⟩ := Document.exists_encode?_render_iff.mpr htexts
    obtain ⟨place, hplace, hread⟩ := readFile_overwrite hwritable
    obtain ⟨f, hf, rfl⟩ := hread bytes
    refine ⟨_, writeMessages_of_text hplace (hfault place hplace)
      (hloadable.text?_eq_ok_iff.mpr ⟨hwriteDepth, rfl⟩) hbytes, ?_⟩
    rw [readMessages_of_readFile hf]
    exact Document.decode_encode hloadable hbytes path.toText

end

/-- A document with line ends, quotes, a backslash and a control character in its texts. -/
def lineEnds : Document :=
  [("z\r", .str "a\r\nb\r\"\\\u0001é"),
    ("a", .obj [("c", .arr [.int (-7), .obj []]), ("b", .null)])]

theorem writable_twoDocuments (first second : Bytes) :
    (twoDocuments first second).Writable (Path.ofText "m/fr.json") := by
  have hdirectory : (twoDocuments first second).locate
      { Path.ofText "m/fr.json" with parts := (Path.ofText "m/fr.json").parts.dropLast }
        = .ok (["m"], .directory none) := by cbv
  exact .create rfl hdirectory (by cbv)

theorem not_shortIntegers_pow [Json.Limits] (name : Text) :
    ¬Json.ShortIntegers (Json.values (.obj [(name, .int (10 ^ Json.Limits.digits))])) := by
  intro hshort
  have hlength := hshort (10 ^ Json.Limits.digits) (List.mem_cons_of_mem _ List.mem_cons_self)
  rw [Int.natAbs_pow] at hlength
  exact absurd (Numeral.lt_length_decimal_pow Json.Limits.digits) (Nat.not_lt.mpr hlength)

section

open scoped Usual

/-- Line ends in texts come back as they were. -/
theorem readMessages_writeMessages_lineEnds :
    ∃ after, (twoDocuments [] []).writeMessages (Path.ofText "m/fr.json") lineEnds
        = (after, none) ∧
      after.readMessages (Path.ofText "m/fr.json") = .ok lineEnds := by
  refine (readMessages_writeMessages_iff (writable_twoDocuments _ _) (fun _ _ => rfl)
    (by cbv) ?_ ?_).1.mpr ⟨by decide, by decide, ?_⟩
  · simp [lineEnds, Json.values, Json.memberValues, Json.itemValues]
  · have hnames : (Assoc.names lineEnds).Nodup ∧
        (Assoc.names [(Text.ofString "c", Json.arr [.int (-7), .obj []]),
          (Text.ofString "b", .null)]).Nodup := by decide
    simpa [lineEnds, Json.values, Json.memberValues, Json.itemValues, Assoc.names] using hnames
  · intro n hn
    obtain rfl : n = -7 := by
      simpa [lineEnds, Json.values, Json.memberValues, Json.itemValues] using hn
    cbv

/-- A number with more digits than the writer takes is not written, and nothing comes back. -/
theorem long_integer_lost :
    let document : Document := [("a", .int (10 ^ Json.Limits.digits))]
    document.hasSurrogate = false ∧
      (∀ x, Json.real x ∉ Json.values (.obj document)) ∧
      (∀ members, Json.obj members ∈ Json.values (.obj document) →
        (Assoc.names members).Nodup) ∧
      (twoDocuments [] []).Writable (Path.ofText "m/fr.json") ∧
      ∃ refusal, (twoDocuments [] []).writeMessages (Path.ofText "m/fr.json") document
          = (twoDocuments [] [], some (.refused refusal)) ∧
        (twoDocuments [] []).readMessages (Path.ofText "m/fr.json") ≠ .ok document := by
  obtain ⟨refusal, hrefused⟩ := writeMessages_refused (twoDocuments [] [])
    (Path.ofText "m/fr.json") fun h => not_shortIntegers_pow "a" h.2
  refine ⟨rfl, ?_, ?_, writable_twoDocuments _ _, refusal, hrefused, fun hread => ?_⟩
  · simp [Json.values, Json.memberValues]
  · simp [Json.values, Json.memberValues, Assoc.names]
  · exact not_shortIntegers_pow "a" (limits_of_readMessages hread).2

end

end FileSystem

end MessageKeys
