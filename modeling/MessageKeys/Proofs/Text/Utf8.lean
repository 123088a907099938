import Mathlib.Tactic.SplitIfs
import MessageKeys.Text.Utf8

/-!
# UTF-8 reads back

The bytes of a code point are read as one chunk, whatever follows (`chunks_encodePoint`), so reading
undoes writing for every text without surrogates (`decode?_encode?`).  The other way round, any
bytes can be put together again from the chunks that they are read as (`makes_chunks`), so a text
that bytes are read as has these bytes (`encode?_of_decode?`).
-/

namespace MessageKeys.Utf8

theorem toNat_ofNat_of_le {n : Nat} (h : n ≤ 0xff) : (UInt8.ofNat n).toNat = n :=
  UInt8.toNat_ofNat_of_lt' (Nat.lt_succ_of_le h)

theorem within_iff {low high : Nat} {b : UInt8} :
    within low high b = true ↔ low ≤ b.toNat ∧ b.toNat ≤ high := by
  simp only [within, Bool.and_eq_true, decide_eq_true_eq]

theorem isContinuation_ofNat (n : Nat) : isContinuation (UInt8.ofNat (0x80 + n % 0x40)) = true := by
  rw [isContinuation, within_iff, toNat_ofNat_of_le (by omega)]
  omega

theorem payload_ofNat (n : Nat) : payload (UInt8.ofNat (0x80 + n % 0x40)) = n % 0x40 := by
  have hle : 0x80 + n % 0x40 ≤ 0xff := by omega
  unfold payload
  have := toNat_ofNat_of_le hle
  omega

theorem scalarOf_val {c : CodePoint} {n : Nat} (h : n = c.val) : scalarOf n = .scalar c := by
  have hlt := c.isLt
  unfold scalarOf CodePoint.ofNat
  congr 1
  apply Fin.ext
  simp only
  omega

theorem chunks_encodePoint {c : CodePoint} (hc : c.isSurrogate = false) (rest : Bytes) :
    chunks (encodePoint c ++ rest) = .scalar c :: chunks rest := by
  have hlt := c.isLt
  have hscalar : c.val < 0xd800 ∨ 0xdfff < c.val := by
    simp only [CodePoint.isSurrogate, Bool.and_eq_false_iff, decide_eq_false_iff_not] at hc
    omega
  unfold encodePoint
  dsimp only
  split_ifs with hone htwo hthree
  · have hlead : (UInt8.ofNat c.val).toNat = c.val := toNat_ofNat_of_le (by omega)
    rw [List.singleton_append, chunks.eq_def]
    dsimp only
    rw [hlead, if_pos hone, scalarOf_val rfl]
  · have hlead : (UInt8.ofNat (0xc0 + c.val / 0x40)).toNat = 0xc0 + c.val / 0x40 :=
      toNat_ofNat_of_le (by omega)
    have hwithin : within 0xc2 0xdf (UInt8.ofNat (0xc0 + c.val / 0x40)) = true := by
      rw [within_iff, hlead]
      omega
    simp only [List.cons_append, List.nil_append]
    rw [chunks.eq_def]
    dsimp only
    rw [hlead, if_neg (by omega), if_pos hwithin, if_pos (isContinuation_ofNat _), payload_ofNat,
      scalarOf_val (c := c) (by omega)]
  · have hlead : (UInt8.ofNat (0xe0 + c.val / 0x1000)).toNat = 0xe0 + c.val / 0x1000 :=
      toNat_ofNat_of_le (by omega)
    have hsecond : (UInt8.ofNat (0x80 + c.val / 0x40 % 0x40)).toNat = 0x80 + c.val / 0x40 % 0x40 :=
      toNat_ofNat_of_le (by omega)
    have hnotTwo : ¬within 0xc2 0xdf (UInt8.ofNat (0xe0 + c.val / 0x1000)) = true := by
      rw [within_iff, hlead]
      omega
    have hwithin : within 0xe0 0xef (UInt8.ofNat (0xe0 + c.val / 0x1000)) = true := by
      rw [within_iff, hlead]
      omega
    -- the bounds after `0xe0` and `0xed` leave out overlong forms and surrogates
    have hbounds : secondOfThree (UInt8.ofNat (0xe0 + c.val / 0x1000))
        (UInt8.ofNat (0x80 + c.val / 0x40 % 0x40)) = true := by
      unfold secondOfThree
      rw [hlead]
      split_ifs <;> rw [within_iff, hsecond] <;> omega
    simp only [List.cons_append, List.nil_append]
    rw [chunks.eq_def]
    dsimp only
    rw [hlead, if_neg (by omega), if_neg hnotTwo,
      if_pos hwithin, if_pos hbounds, if_pos (isContinuation_ofNat _), payload_ofNat,
      payload_ofNat, scalarOf_val (c := c) (by omega)]
  · have hlead : (UInt8.ofNat (0xf0 + c.val / 0x40000)).toNat = 0xf0 + c.val / 0x40000 :=
      toNat_ofNat_of_le (by omega)
    have hsecond : (UInt8.ofNat (0x80 + c.val / 0x1000 % 0x40)).toNat
        = 0x80 + c.val / 0x1000 % 0x40 := toNat_ofNat_of_le (by omega)
    have hnotTwo : ¬within 0xc2 0xdf (UInt8.ofNat (0xf0 + c.val / 0x40000)) = true := by
      rw [within_iff, hlead]
      omega
    have hnotThree : ¬within 0xe0 0xef (UInt8.ofNat (0xf0 + c.val / 0x40000)) = true := by
      rw [within_iff, hlead]
      omega
    have hwithin : within 0xf0 0xf4 (UInt8.ofNat (0xf0 + c.val / 0x40000)) = true := by
      rw [within_iff, hlead]
      omega
    have hbounds : secondOfFour (UInt8.ofNat (0xf0 + c.val / 0x40000))
        (UInt8.ofNat (0x80 + c.val / 0x1000 % 0x40)) = true := by
      unfold secondOfFour
      rw [hlead]
      split_ifs <;> rw [within_iff, hsecond] <;> omega
    simp only [List.cons_append, List.nil_append]
    rw [chunks.eq_def]
    dsimp only
    rw [hlead, if_neg (by omega), if_neg hnotTwo,
      if_neg hnotThree, if_pos hwithin, if_pos hbounds,
      if_pos (isContinuation_ofNat _), if_pos (isContinuation_ofNat _), payload_ofNat,
      payload_ofNat, payload_ofNat, scalarOf_val (c := c) (by omega)]

theorem chunks_append {t : Text} (ht : ∀ c ∈ t, c.isSurrogate = false) (rest : Bytes) :
    chunks (t.flatMap encodePoint ++ rest) = t.map Chunk.scalar ++ chunks rest := by
  induction t with
  | nil => rfl
  | cons c more ih =>
      rw [List.flatMap_cons, List.append_assoc, chunks_encodePoint (ht c List.mem_cons_self),
        ih fun d hd => ht d (List.mem_cons_of_mem c hd), List.map_cons, List.cons_append]

theorem chunks_flatMap_encodePoint {t : Text} (ht : ∀ c ∈ t, c.isSurrogate = false) :
    chunks (t.flatMap encodePoint) = t.map Chunk.scalar := by
  have happend := chunks_append ht []
  rw [List.append_nil] at happend
  exact happend.trans (List.append_nil _)

theorem encode?_eq_some_iff {t : Text} {bytes : Bytes} :
    encode? t = some bytes ↔ (∀ c ∈ t, c.isSurrogate = false) ∧ t.flatMap encodePoint = bytes := by
  have hany : t.any CodePoint.isSurrogate = false ↔ ∀ c ∈ t, c.isSurrogate = false := by
    simp only [List.any_eq_false, Bool.not_eq_true]
  unfold encode?
  rw [← hany]
  cases t.any CodePoint.isSurrogate <;> simp

/-- Reading the bytes of a text gives the text. -/
theorem decode?_encode? {t : Text} {bytes : Bytes} (h : encode? t = some bytes) :
    decode? bytes = some t := by
  obtain ⟨hscalar, rfl⟩ := encode?_eq_some_iff.mp h
  rw [decode?, chunks_flatMap_encodePoint hscalar]
  clear hscalar h
  induction t with
  | nil => rfl
  | cons c rest ih =>
      rw [List.map_cons, List.mapM_cons, ih]
      rfl

/-! ## Reading loses nothing -/

/-- The bytes that a chunk is read from. -/
def Chunk.bytes : Chunk → Bytes
  | .scalar c => encodePoint c
  | .malformed part => part

/-- A chunk that bytes can be read as: a code point with a UTF-8 form, or bytes above ASCII. -/
def Chunk.Regular : Chunk → Prop
  | .scalar c => c.isSurrogate = false
  | .malformed part => ∀ b ∈ part, 0x80 ≤ b.toNat

theorem ofNat_eq {n : Nat} {b : UInt8} (h : n = b.toNat) : UInt8.ofNat n = b := by
  rw [h, UInt8.ofNat_toNat]

theorem val_ofNat {n : Nat} (h : n < 0x110000) : (CodePoint.ofNat n).val = n :=
  Nat.mod_eq_of_lt h

theorem isSurrogate_ofNat {n : Nat} (h : n < 0xd800 ∨ 0xdfff < n) (hlt : n < 0x110000) :
    (CodePoint.ofNat n).isSurrogate = false := by
  unfold CodePoint.isSurrogate
  rw [val_ofNat hlt]
  simp only [Bool.and_eq_false_iff, decide_eq_false_iff_not]
  omega

theorem encodePoint_one {b₀ : UInt8} (h₀ : b₀.toNat < 0x80) :
    (scalarOf b₀.toNat).bytes = [b₀] ∧ (scalarOf b₀.toNat).Regular := by
  refine ⟨?_, isSurrogate_ofNat (by omega) (by omega)⟩
  unfold scalarOf Chunk.bytes encodePoint
  dsimp only
  rw [val_ofNat (by omega), if_pos h₀, ofNat_eq rfl]

theorem encodePoint_two {b₀ b₁ : UInt8} (h₀ : within 0xc2 0xdf b₀ = true)
    (h₁ : isContinuation b₁ = true) :
    (scalarOf ((b₀.toNat - 0xc0) * 0x40 + payload b₁)).bytes = [b₀, b₁] ∧
      (scalarOf ((b₀.toNat - 0xc0) * 0x40 + payload b₁)).Regular := by
  rw [within_iff] at h₀
  rw [isContinuation, within_iff] at h₁
  unfold payload
  refine ⟨?_, isSurrogate_ofNat (by omega) (by omega)⟩
  unfold scalarOf Chunk.bytes encodePoint
  dsimp only
  rw [val_ofNat (by omega), if_neg (by omega), if_pos (by omega), ofNat_eq (b := b₀) (by omega),
    ofNat_eq (b := b₁) (by omega)]

theorem encodePoint_three {b₀ b₁ b₂ : UInt8} (h₀ : within 0xe0 0xef b₀ = true)
    (h₁ : secondOfThree b₀ b₁ = true) (h₂ : isContinuation b₂ = true) :
    (scalarOf ((b₀.toNat - 0xe0) * 0x1000 + payload b₁ * 0x40 + payload b₂)).bytes = [b₀, b₁, b₂] ∧
      (scalarOf ((b₀.toNat - 0xe0) * 0x1000 + payload b₁ * 0x40 + payload b₂)).Regular := by
  rw [within_iff] at h₀
  rw [isContinuation, within_iff] at h₂
  unfold secondOfThree at h₁
  unfold payload
  have h₁' : (b₀.toNat = 0xe0 ∧ 0xa0 ≤ b₁.toNat ∧ b₁.toNat ≤ 0xbf) ∨
      (b₀.toNat = 0xed ∧ 0x80 ≤ b₁.toNat ∧ b₁.toNat ≤ 0x9f) ∨
      (b₀.toNat ≠ 0xe0 ∧ b₀.toNat ≠ 0xed ∧ 0x80 ≤ b₁.toNat ∧ b₁.toNat ≤ 0xbf) := by
    split_ifs at h₁ <;> rw [within_iff] at h₁ <;> omega
  refine ⟨?_, isSurrogate_ofNat (by omega) (by omega)⟩
  unfold scalarOf Chunk.bytes encodePoint
  dsimp only
  rw [val_ofNat (by omega), if_neg (by omega), if_neg (by omega), if_pos (by omega),
    ofNat_eq (b := b₀) (by omega), ofNat_eq (b := b₁) (by omega), ofNat_eq (b := b₂) (by omega)]

theorem encodePoint_four {b₀ b₁ b₂ b₃ : UInt8} (h₀ : within 0xf0 0xf4 b₀ = true)
    (h₁ : secondOfFour b₀ b₁ = true) (h₂ : isContinuation b₂ = true)
    (h₃ : isContinuation b₃ = true) :
    (scalarOf ((b₀.toNat - 0xf0) * 0x40000 + payload b₁ * 0x1000 + payload b₂ * 0x40
        + payload b₃)).bytes = [b₀, b₁, b₂, b₃] ∧
      (scalarOf ((b₀.toNat - 0xf0) * 0x40000 + payload b₁ * 0x1000 + payload b₂ * 0x40
        + payload b₃)).Regular := by
  rw [within_iff] at h₀
  rw [isContinuation, within_iff] at h₂ h₃
  unfold secondOfFour at h₁
  unfold payload
  have h₁' : (b₀.toNat = 0xf0 ∧ 0x90 ≤ b₁.toNat ∧ b₁.toNat ≤ 0xbf) ∨
      (b₀.toNat = 0xf4 ∧ 0x80 ≤ b₁.toNat ∧ b₁.toNat ≤ 0x8f) ∨
      (b₀.toNat ≠ 0xf0 ∧ b₀.toNat ≠ 0xf4 ∧ 0x80 ≤ b₁.toNat ∧ b₁.toNat ≤ 0xbf) := by
    split_ifs at h₁ <;> rw [within_iff] at h₁ <;> omega
  refine ⟨?_, isSurrogate_ofNat (by omega) (by omega)⟩
  unfold scalarOf Chunk.bytes encodePoint
  dsimp only
  rw [val_ofNat (by omega), if_neg (by omega), if_neg (by omega), if_neg (by omega),
    ofNat_eq (b := b₀) (by omega), ofNat_eq (b := b₁) (by omega), ofNat_eq (b := b₂) (by omega),
    ofNat_eq (b := b₃) (by omega)]

/-- Chunks that some bytes are made of. -/
structure Makes (parts : List Chunk) (bytes : Bytes) : Prop where
  bytes_eq : parts.flatMap Chunk.bytes = bytes
  regular : ∀ chunk ∈ parts, chunk.Regular

theorem Makes.cons {chunk : Chunk} {front back : Bytes} {parts : List Chunk}
    (hchunk : chunk.bytes = front ∧ chunk.Regular) (hparts : Makes parts back) :
    Makes (chunk :: parts) (front ++ back) := by
  refine ⟨?_, List.forall_mem_cons.mpr ⟨hchunk.2, hparts.regular⟩⟩
  rw [List.flatMap_cons, hchunk.1, hparts.bytes_eq]

theorem makes_nil : Makes [] [] :=
  ⟨rfl, fun _ h => absurd h List.not_mem_nil⟩

theorem Makes.malformed {lead : UInt8} {part back : Bytes} {parts : List Chunk}
    (hparts : Makes parts back) (hlead : ¬lead.toNat < 0x80)
    (hpart : ∀ b ∈ part, 0x80 ≤ b.toNat) :
    Makes (.malformed (lead :: part) :: parts) (lead :: part ++ back) :=
  hparts.cons ⟨rfl, List.forall_mem_cons.mpr ⟨Nat.not_lt.mp hlead, hpart⟩⟩

theorem le_of_isContinuation {b : UInt8} (h : isContinuation b = true) : 0x80 ≤ b.toNat := by
  rw [isContinuation, within_iff] at h
  exact h.1

theorem le_of_secondOfThree {lead b : UInt8} (h : secondOfThree lead b = true) :
    0x80 ≤ b.toNat := by
  unfold secondOfThree at h
  split_ifs at h <;> rw [within_iff] at h <;> omega

theorem le_of_secondOfFour {lead b : UInt8} (h : secondOfFour lead b = true) :
    0x80 ≤ b.toNat := by
  unfold secondOfFour at h
  split_ifs at h <;> rw [within_iff] at h <;> omega

/-- Reading loses no byte. -/
theorem makes_chunks (bytes : Bytes) : Makes (chunks bytes) bytes := by
  fun_induction chunks bytes with
  | case1 => exact makes_nil
  | case2 b₀ rest hb₀ ih => exact ih.cons (encodePoint_one hb₀)
  | case3 b₀ hb₀ => exact makes_nil.malformed hb₀ nofun
  | case4 b₀ hb₀ hlead b₁ rest hb₁ ih => exact ih.cons (encodePoint_two hlead hb₁)
  | case5 b₀ hb₀ hlead b₁ rest hb₁ ih => exact ih.malformed hb₀ nofun
  | case6 b₀ hb₀ => exact makes_nil.malformed hb₀ nofun
  | case7 b₀ hb₀ _ hlead b₁ hb₁ =>
      exact makes_nil.malformed hb₀ (by simpa using le_of_secondOfThree hb₁)
  | case8 b₀ hb₀ _ hlead b₁ hb₁ b₂ rest hb₂ ih => exact ih.cons (encodePoint_three hlead hb₁ hb₂)
  | case9 b₀ hb₀ _ hlead b₁ hb₁ b₂ rest hb₂ ih =>
      exact ih.malformed hb₀ (by simpa using le_of_secondOfThree hb₁)
  | case10 b₀ hb₀ _ hlead b₁ rest hb₁ ih => exact ih.malformed hb₀ nofun
  | case11 b₀ hb₀ => exact makes_nil.malformed hb₀ nofun
  | case12 b₀ hb₀ _ _ hlead b₁ hb₁ =>
      exact makes_nil.malformed hb₀ (by simpa using le_of_secondOfFour hb₁)
  | case13 b₀ hb₀ _ _ hlead b₁ hb₁ b₂ hb₂ =>
      exact makes_nil.malformed hb₀
        (by simpa using ⟨le_of_secondOfFour hb₁, le_of_isContinuation hb₂⟩)
  | case14 b₀ hb₀ _ _ hlead b₁ hb₁ b₂ hb₂ b₃ rest hb₃ ih =>
      exact ih.cons (encodePoint_four hlead hb₁ hb₂ hb₃)
  | case15 b₀ hb₀ _ _ hlead b₁ hb₁ b₂ hb₂ b₃ rest hb₃ ih =>
      exact ih.malformed hb₀
        (by simpa using ⟨le_of_secondOfFour hb₁, le_of_isContinuation hb₂⟩)
  | case16 b₀ hb₀ _ _ hlead b₁ hb₁ b₂ rest hb₂ ih =>
      exact ih.malformed hb₀ (by simpa using le_of_secondOfFour hb₁)
  | case17 b₀ hb₀ _ _ hlead b₁ rest hb₁ ih => exact ih.malformed hb₀ nofun
  | case18 b₀ rest hb₀ _ _ _ ih => exact ih.malformed hb₀ nofun

theorem chunks_of_decode? {bytes : Bytes} {t : Text} (h : decode? bytes = some t) :
    chunks bytes = t.map Chunk.scalar := by
  unfold decode? at h
  generalize chunks bytes = parts at h
  induction parts generalizing t with
  | nil =>
      obtain rfl := Option.some.inj h
      rfl
  | cons chunk parts ih =>
      rw [List.mapM_cons] at h
      obtain ⟨c, hc, h⟩ := Option.bind_eq_some_iff.mp h
      obtain ⟨rest, hrest, h⟩ := Option.bind_eq_some_iff.mp h
      obtain rfl := Option.some.inj h
      rw [ih hrest, List.map_cons]
      cases chunk with
      | scalar d => rw [Option.some.inj hc]
      | malformed part => contradiction

/-- A text that bytes are read as has these bytes. -/
theorem encode?_of_decode? {bytes : Bytes} {t : Text} (h : decode? bytes = some t) :
    encode? t = some bytes := by
  obtain ⟨hbytes, hregular⟩ := makes_chunks bytes
  rw [chunks_of_decode? h] at hbytes hregular
  refine encode?_eq_some_iff.mpr ⟨fun c hc => hregular _ (List.mem_map_of_mem hc), ?_⟩
  rw [← hbytes, List.flatMap_map]
  rfl

/-- What the first bytes of a text are read as is a beginning of the text. -/
theorem append_of_decode?_take {t front : Text} {bytes : Bytes} {kept : Nat}
    (h : encode? t = some bytes) (hfront : decode? (bytes.take kept) = some front) :
    ∃ back, t = front ++ back ∧ encode? back = some (bytes.drop kept) := by
  obtain ⟨hscalar, hbytes⟩ := encode?_eq_some_iff.mp h
  obtain ⟨hfrontScalar, hfrontBytes⟩ := encode?_eq_some_iff.mp (encode?_of_decode? hfront)
  have hchunks : t.map Chunk.scalar = front.map Chunk.scalar ++ chunks (bytes.drop kept) := by
    rw [← chunks_append hfrontScalar, hfrontBytes, List.take_append_drop, ← hbytes,
      chunks_flatMap_encodePoint hscalar]
  obtain ⟨front', back, rfl, hfront', -⟩ := List.map_eq_append_iff.mp hchunks
  obtain rfl : front' = front := by
    have hpoints := congrArg (List.map Chunk.shown) hfront'
    simpa only [List.map_map, show Chunk.shown ∘ Chunk.scalar = id from rfl, List.map_id]
      using hpoints
  refine ⟨back, rfl, encode?_eq_some_iff.mpr
    ⟨fun c hc => hscalar c (List.mem_append_right _ hc), ?_⟩⟩
  rw [List.flatMap_append, hfrontBytes] at hbytes
  exact List.append_cancel_left (hbytes.trans (List.take_append_drop kept bytes).symm)
end MessageKeys.Utf8
