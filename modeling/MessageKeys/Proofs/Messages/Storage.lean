import MessageKeys.Messages.Store
import MessageKeys.Proofs.Json.CodePoints
import MessageKeys.Proofs.Json.Extension
import MessageKeys.Proofs.Json.Limits
import MessageKeys.Proofs.Messages.Terminals
import MessageKeys.Proofs.Text.Utf8

/-!
# Stored documents

A document that was loaded can be stored, and is the same when it is loaded again (`decode_encode`),
unless it is nested too deep to be written (`text?_eq_ok_iff`) or one of its texts holds a lone
surrogate (`encode?_render_eq_none_iff`).  That is what an escape in a document may stand for, so
not every document that can be loaded can be stored.  If only some of the bytes are stored, it is
still the same as long as no more than the last newline is missing, and no document otherwise
(`decode_take_eq_ok_iff`).

Erasing keys keeps a document loadable (`loadable_eraseKeys`).

A write has a text or not, can open the file or not, has bytes or not, and gets them to the file or
not (`Writes`).  What it leaves of the file is seen from the document and the fault of the file
alone (`writeMessages_of_locate`).
-/

namespace MessageKeys.Document

/-- A document that loading can have given. -/
def Loadable [Json.Limits] (document : Document) : Prop :=
  Json.Readable Json.Limits.readDepth (.obj document)

/-- Whether a name or a string of a document holds a lone surrogate. -/
def hasSurrogate (document : Document) : Bool :=
  (Json.memberTexts document).any fun s => s.any CodePoint.isSurrogate

/-! ## Writing and reading -/

theorem universalNewlines_eq_self {t : Text} (h : CodePoint.ofChar '\r' ∉ t) :
    universalNewlines t = t := by
  induction t with
  | nil => rfl
  | cons c rest ih =>
      obtain ⟨hc, hrest⟩ := not_or.mp (mt List.mem_cons.mpr h)
      rw [universalNewlines.eq_def]
      dsimp only
      rw [if_neg (Ne.symm hc), ih hrest]

theorem render_eq (document : Document) :
    document.render = Json.prettyOnto 0 [CodePoint.ofChar '\n'] (.obj document) := by
  rw [render, Json.pretty, ← Json.prettyOnto_append, List.nil_append]

theorem return_not_mem_prettyOnto (document : Document) {rest : Text}
    (hrest : CodePoint.ofChar '\r' ∉ rest) :
    CodePoint.ofChar '\r' ∉ Json.prettyOnto 0 rest (.obj document) := by
  rw [Json.mem_prettyOnto rfl]
  rintro (⟨hle, -⟩ | hmem)
  · exact absurd hle (by decide)
  · exact hrest hmem

theorem any_isSurrogate_render (document : Document) :
    document.render.any CodePoint.isSurrogate = document.hasSurrogate := by
  have hmem : ∀ c : CodePoint, c.isSurrogate = true →
      (c ∈ document.render ↔ ∃ s ∈ Json.memberTexts document, c ∈ s) := by
    intro c hc
    simp only [CodePoint.isSurrogate, Bool.and_eq_true, decide_eq_true_eq] at hc
    have hplain : Json.isPlain c = false := by
      have hnewline : (CodePoint.ofChar '\n').val = 0x0a := rfl
      simp only [Json.isPlain, Bool.or_eq_false_iff, beq_eq_false_iff_ne, Bool.and_eq_false_iff,
        decide_eq_false_iff_not]
      refine ⟨?_, Or.inr (by omega)⟩
      rintro rfl
      omega
    rw [render_eq, Json.mem_prettyOnto hplain, Json.texts]
    constructor
    · rintro (⟨-, h⟩ | h)
      · exact h
      · rw [List.mem_singleton.mp h] at hplain
        contradiction
    · exact fun h => Or.inl ⟨by omega, h⟩
  rw [Bool.eq_iff_iff, hasSurrogate, List.any_eq_true, List.any_eq_true]
  simp only [List.any_eq_true]
  constructor
  · rintro ⟨c, hc, hsurrogate⟩
    obtain ⟨s, hs, hcs⟩ := (hmem c hsurrogate).mp hc
    exact ⟨s, hs, c, hcs, hsurrogate⟩
  · rintro ⟨s, hs, c, hcs, hsurrogate⟩
    exact ⟨c, (hmem c hsurrogate).mpr ⟨s, hs, hcs⟩, hsurrogate⟩

/-- A document has no bytes exactly if a lone surrogate stands in it. -/
theorem encode?_render_eq_none_iff {document : Document} :
    Utf8.encode? document.render = none ↔ document.hasSurrogate = true := by
  unfold Utf8.encode?
  rw [any_isSurrogate_render]
  cases document.hasSurrogate <;> simp

theorem exists_encode?_render_iff {document : Document} :
    (∃ bytes, Utf8.encode? document.render = some bytes) ↔ document.hasSurrogate = false := by
  rw [← Option.ne_none_iff_exists', Ne, encode?_render_eq_none_iff, Bool.not_eq_true]

/-- A document has a text if it is within the limits of the writer. -/
theorem text?_eq_ok_iff [Json.Limits] {document : Document} {text : Text} :
    document.text? = .ok text ↔ (Json.depth (.obj document) ≤ Json.Limits.writeDepth ∧
      Json.ShortIntegers (Json.values (.obj document))) ∧ text = document.render := by
  rw [← Json.refusal?_eq_none_iff]
  unfold text?
  cases Json.refusal? Json.Limits.writeDepth (.obj document) <;> simp [eq_comm]

theorem Loadable.text?_eq_ok_iff [Json.Limits] {document : Document} (h : document.Loadable)
    {text : Text} : document.text? = .ok text ↔
      Json.depth (.obj document) ≤ Json.Limits.writeDepth ∧ text = document.render := by
  rw [Document.text?_eq_ok_iff, and_iff_left h.shortIntegers]

/-- The text of a document with no more than blanks after it is loaded as the document. -/
theorem decode_prettyOnto [Json.Limits] {document : Document} (h : document.Loadable) {rest : Text}
    (hrest : Json.Delimited rest) (hblank : Json.skipBlanks rest = [])
    (hreturn : CodePoint.ofChar '\r' ∉ rest) {bytes : Bytes}
    (hbytes : Utf8.encode? (Json.prettyOnto 0 rest (.obj document)) = some bytes) (path : Text) :
    decode path bytes = .ok document := by
  have hread : Json.read (Json.prettyOnto 0 rest (.obj document)) = .ok (.obj document) :=
    Json.readWithin_prettyOnto h hrest hblank
  unfold decode
  rw [Utf8.decode?_encode? hbytes]
  dsimp only
  rw [universalNewlines_eq_self (return_not_mem_prettyOnto document hreturn), parse, hread]

/-- A stored document is loaded as it was. -/
theorem decode_encode [Json.Limits] {document : Document} (h : document.Loadable) {bytes : Bytes}
    (hbytes : Utf8.encode? document.render = some bytes) (path : Text) :
    decode path bytes = .ok document := by
  rw [render_eq] at hbytes
  exact decode_prettyOnto h (Json.delimited_cons (Or.inr rfl) []) rfl (by decide) hbytes path

theorem decode_eq_ok_iff [Json.Limits] {path : Text} {content : Bytes} {document : Document} :
    decode path content = .ok document ↔ ∃ text, Utf8.decode? content = some text ∧
      Json.read (universalNewlines text) = .ok (.obj document) := by
  unfold decode parse
  cases Utf8.decode? content with
  | none => simp
  | some text =>
      simp only [Option.some.injEq, exists_eq_left']
      split <;> simp_all

theorem decode_eq_error_iff [Json.Limits] {path : Text} {content : Bytes} :
    (∃ e, decode path content = .error e ∧ ∀ failure, e ≠ .unusable failure) ↔
      Utf8.decode? content = none ∨ ∃ text, Utf8.decode? content = some text ∧
        ((∃ count, Json.read (universalNewlines text) = .error (.tooManyDigits count)) ∨
          Json.read (universalNewlines text) = .error .tooDeep) := by
  unfold decode parse
  cases Utf8.decode? content with
  | none => simp
  | some text =>
      simp only [Option.some.injEq, exists_eq_left', reduceCtorEq, false_or]
      split <;> simp_all

theorem loadable_of_decode [Json.Limits] {path : Text} {bytes : Bytes} {document : Document}
    (h : decode path bytes = .ok document) : document.Loadable := by
  obtain ⟨text, -, hread⟩ := decode_eq_ok_iff.mp h
  exact Json.readable_of_readWithin hread

/-- An empty file holds no document. -/
theorem decode_nil [Json.Limits] (path : Text) (document : Document) :
    decode path [] ≠ .ok document := by
  intro h
  have hempty : decode path [] = .error (.unusable
      ⟨path, .invalid (Json.malformedMessage [] .expectedValue 0)⟩) := rfl
  rw [hempty] at h
  contradiction

/-- A document is still there if only its last newline is missing. -/
theorem decode_dropLast [Json.Limits] {document : Document} (h : document.Loadable) {bytes : Bytes}
    (hbytes : Utf8.encode? document.render = some bytes) {kept : ℕ}
    (hkept : bytes.length = kept + 1) (path : Text) :
    decode path (bytes.take kept) = .ok document := by
  obtain ⟨hscalar, rfl⟩ := Utf8.encode?_eq_some_iff.mp hbytes
  have hsplit : document.render.flatMap Utf8.encodePoint
      = (Json.pretty (.obj document)).flatMap Utf8.encodePoint ++ [0x0a] := by
    rw [render, List.flatMap_append]
    rfl
  rw [hsplit, List.length_append, List.length_singleton, Nat.add_right_cancel_iff] at hkept
  rw [hsplit, ← hkept, List.take_left]
  refine decode_prettyOnto h Json.delimited_nil rfl List.not_mem_nil ?_ path
  exact Utf8.encode?_eq_some_iff.mpr
    ⟨fun c hc => hscalar c (List.mem_append_left _ hc), rfl⟩

/-- A document of which more than the last newline is missing is no document. -/
theorem decode_take_ne_ok [Json.Limits] {document : Document} (h : document.Loadable)
    {bytes : Bytes} (hbytes : Utf8.encode? document.render = some bytes) {kept : ℕ}
    (hkept : kept + 1 < bytes.length) (path : Text) (other : Document) :
    decode path (bytes.take kept) ≠ .ok other := by
  intro hdecode
  obtain ⟨front, hfront, hread⟩ := decode_eq_ok_iff.mp hdecode
  obtain ⟨back, hrender, hback⟩ := Utf8.append_of_decode?_take hbytes hfront
  have hreturn : CodePoint.ofChar '\r' ∉ front := by
    intro hmem
    have hnot : CodePoint.ofChar '\r' ∉ Json.prettyOnto 0 [CodePoint.ofChar '\n'] (.obj document) :=
      return_not_mem_prettyOnto document (by decide)
    rw [← render_eq, hrender] at hnot
    exact hnot (List.mem_append_left _ hmem)
  -- what is missing is more than one byte, and its last code point is the newline
  have hmissing : 1 < back.length := by
    have hlength := congrArg List.length (Utf8.encode?_eq_some_iff.mp hback).2
    rw [List.length_drop] at hlength
    by_contra hshort
    match back with
    | [] =>
        rw [List.flatMap_nil, List.length_nil] at hlength
        omega
    | [c] =>
        obtain rfl : CodePoint.ofChar '\n' = c := by
          rw [render] at hrender
          exact List.singleton_inj.mp (List.append_inj_right' hrender rfl)
        rw [show [CodePoint.ofChar '\n'].flatMap Utf8.encodePoint = [0x0a] from rfl,
          List.length_singleton] at hlength
        omega
    | _ :: _ :: _ => exact hshort (by simp)
  rw [universalNewlines_eq_self hreturn] at hread
  rw [render_eq] at hrender
  exact Json.not_readWithin_of_cut h hrender hmissing (.obj other) hread

/-- The first bytes of a stored document hold it if no more than its last newline is missing, and
no document otherwise. -/
theorem decode_take_eq_ok_iff [Json.Limits] {document : Document} (h : document.Loadable)
    {bytes : Bytes} (hbytes : Utf8.encode? document.render = some bytes) {kept : ℕ} {path : Text}
    {other : Document} :
    decode path (bytes.take kept) = .ok other ↔ bytes.length ≤ kept + 1 ∧ other = document := by
  rcases Nat.lt_trichotomy (kept + 1) bytes.length with hlt | heq | hgt
  · exact iff_of_false (decode_take_ne_ok h hbytes hlt path other) fun hle => by omega
  · rw [decode_dropLast h hbytes heq.symm, Except.ok.injEq, and_iff_right heq.ge, eq_comm]
  · rw [List.take_of_length_le (by omega), decode_encode h hbytes, Except.ok.injEq,
      and_iff_right hgt.le, eq_comm]

/-! ## Erasing -/

theorem eraseMember_eq_some {segment : Text} {rest : List Text} {member left : Text × Json}
    (h : eraseMember segment rest member = some left) :
    left = member ∨ ∃ members, member.2 = .obj members ∧
      left = (member.1, .obj (erasePath rest members)) := by
  unfold eraseMember at h
  split at h
  · split at h
    · contradiction
    · rename_i members _ hmembers
      split at h
      · contradiction
      · exact Or.inr ⟨members, hmembers, (Option.some.inj h).symm⟩
    · exact Or.inl (Option.some.inj h).symm
  · exact Or.inl (Option.some.inj h).symm

theorem names_erasePath_sublist (path : List Text) (document : Document) :
    (Assoc.names (erasePath path document)).Sublist (Assoc.names document) := by
  cases path with
  | nil => exact List.Sublist.refl _
  | cons segment rest =>
      rw [erasePath_cons]
      unfold Assoc.names
      induction document with
      | nil => exact List.Sublist.refl _
      | cons member members ih =>
          rw [List.filterMap_cons]
          split
          · exact ih.cons _
          · rename_i left hleft
            have hname : left.1 = member.1 := by
              rcases eraseMember_eq_some hleft with rfl | ⟨_, _, rfl⟩ <;> rfl
            rw [List.map_cons, List.map_cons, hname]
            exact ih.cons_cons _

/-- Erasing keeps what the reader can have read. -/
theorem readable_erasePath [Json.Limits] {room : ℕ} {path : List Text} {document : Document}
    (h : Json.Readable room (.obj document)) :
    Json.Readable room (.obj (erasePath path document)) := by
  induction path generalizing room document with
  | nil => exact h
  | cons segment rest ih =>
      cases h with
      | obj hnames hmembers =>
          refine .obj (hnames.sublist (names_erasePath_sublist _ _)) ?_
          rw [erasePath_cons]
          intro left hleft
          obtain ⟨member, hmember, herased⟩ := List.mem_filterMap.mp hleft
          rcases eraseMember_eq_some herased with rfl | ⟨members, hvalue, rfl⟩
          · exact hmembers left hmember
          · exact ih (hvalue ▸ hmembers member hmember)

theorem loadable_eraseKeys [Json.Limits] {document : Document} (h : document.Loadable)
    (keys : List Text) :
    (document.eraseKeys keys).1.Loadable := by
  rw [eraseKeys_fst]
  induction keys generalizing document with
  | nil => exact h
  | cons key keys ih => exact ih (readable_erasePath h)

end MessageKeys.Document

namespace MessageKeys

/-! ## What a write leaves -/

namespace Document

variable [Json.Limits]

/-- What writing a document does to its file, by the fault of the file: the content that the file is
given, if it is given any, and why the write fails. -/
def write (document : Document) (fault : Option WriteFault) : Option Bytes × Option WriteError :=
  match document.text? with
  | .error refusal => (none, some (.refused refusal))
  | .ok text =>
      match fault, Utf8.encode? text with
      | some (.refused reason), _ => (none, some (.failed reason))
      | _, none => (some [], some .unencodable)
      | some (.cut kept reason), some bytes => (some (bytes.take kept), some (.failed reason))
      | none, some bytes => (some bytes, none)

/-- The ways in which a write ends. -/
inductive Writes (document : Document) : Option WriteFault → Option Bytes → Option WriteError → Prop
  /-- There is no text to be written. -/
  | refused {fault : Option WriteFault} {refusal : Json.Refusal}
      (htext : document.text? = .error refusal) :
      Writes document fault none (some (.refused refusal))
  /-- The file cannot be opened. -/
  | denied {reason : Text} (htext : document.text? = .ok document.render) :
      Writes document (some (.refused reason)) none (some (.failed reason))
  /-- The file is emptied before it shows that the text has no bytes. -/
  | unencodable {fault : Option WriteFault} (htext : document.text? = .ok document.render)
      (hopened : ∀ reason, fault ≠ some (.refused reason))
      (hbytes : Utf8.encode? document.render = none) :
      Writes document fault (some []) (some .unencodable)
  /-- Some of the bytes get there. -/
  | cut {kept : ℕ} {reason : Text} {bytes : Bytes} (htext : document.text? = .ok document.render)
      (hbytes : Utf8.encode? document.render = some bytes) :
      Writes document (some (.cut kept reason)) (some (bytes.take kept)) (some (.failed reason))
  /-- All bytes get there. -/
  | whole {bytes : Bytes} (htext : document.text? = .ok document.render)
      (hbytes : Utf8.encode? document.render = some bytes) : Writes document none (some bytes) none

theorem writes_write (document : Document) (fault : Option WriteFault) :
    document.Writes fault (document.write fault).1 (document.write fault).2 := by
  unfold write
  cases htext : document.text? with
  | error refusal => exact .refused htext
  | ok text =>
      obtain ⟨-, rfl⟩ := text?_eq_ok_iff.mp htext
      dsimp only
      cases hbytes : Utf8.encode? document.render with
      | none =>
          rcases fault with _ | reason | ⟨kept, reason⟩
          · exact .unencodable htext (by simp) hbytes
          · exact .denied htext
          · exact .unencodable htext (by simp) hbytes
      | some bytes =>
          rcases fault with _ | reason | ⟨kept, reason⟩
          · exact .whole htext hbytes
          · exact .denied htext
          · exact .cut htext hbytes

end Document

namespace FileSystem

/-- The file at a place is given new content, or left as it is. -/
def put (fs : FileSystem) (place : AbsolutePath) : Option Bytes → FileSystem
  | some content => fs.overwrite place content
  | none => fs

section

variable [Json.Limits] {fs : FileSystem} {path : Path} {place : AbsolutePath} {f : File}

/-- A document is read from the file that its path leads to. -/
theorem readMessages_eq_ok_iff {document : Document} :
    fs.readMessages path = .ok document ↔ ∃ place f, fs.locate path = .ok (place, .file f) ∧
      Document.decode path.toText f.content = .ok document := by
  unfold readMessages readFile
  cases fs.locate path with
  | error e => rcases e with fault | (_ | _ | _ | _ | _) <;> simp
  | ok found => rcases found with ⟨place, given | f⟩ <;> simp

theorem readMessages_of_readFile (h : fs.readFile path = .ok f) :
    fs.readMessages path = Document.decode path.toText f.content := by
  unfold readMessages
  rw [h]

/-- A document is written to the file at a place as the fault of the file allows. -/
theorem writeText_eq (fs : FileSystem) (place : AbsolutePath) {document : Document}
    (htext : document.text? = .ok document.render) :
    fs.writeText place document.render = (fs.put place (document.write (fs.fault? place)).1,
      (document.write (fs.fault? place)).2) := by
  unfold writeText Document.write
  rw [htext]
  dsimp only
  cases Utf8.encode? document.render <;>
    rcases fs.fault? place with _ | reason | ⟨kept, reason⟩ <;> rfl

theorem writeMessages_of_locate (h : fs.locate path = .ok (place, .file f)) (document : Document) :
    fs.writeMessages path document = (fs.put place (document.write (fs.fault? place)).1,
      (document.write (fs.fault? place)).2) := by
  have hplace : fs.writable path = .ok place := by
    unfold writable
    rw [h]
  cases htext : document.text? with
  | error refusal =>
      unfold writeMessages Document.write
      rw [htext]
      rfl
  | ok text =>
      obtain ⟨-, rfl⟩ := Document.text?_eq_ok_iff.mp htext
      rw [← writeText_eq fs place htext, writeMessages, htext]
      dsimp only
      rw [hplace]

end

end FileSystem

end MessageKeys
