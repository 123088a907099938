import MessageKeys.Text.Basic

/-!
# UTF-8

Bytes are read as a row of chunks: a chunk is either one well-formed code point or a
maximal malformed part, that is, a longest run that begins some well-formed sequence, or a
single byte that begins none.  Strict reading refuses a row with a malformed part, lossy
reading writes U+FFFD for each of them.  Surrogates have no UTF-8 form, neither to read
nor to write.
-/

namespace MessageKeys

/-- The content of a file. -/
abbrev Bytes := List UInt8

namespace Utf8

/-- One step of reading: a code point, or a part that stands for none. -/
inductive Chunk where
  | scalar (c : CodePoint)
  | malformed (part : Bytes)
  deriving DecidableEq, Repr

/-- A byte between two bounds. -/
def within (low high : Nat) (b : UInt8) : Bool :=
  low ≤ b.toNat && b.toNat ≤ high

/-- The bounds of the second byte after a three-byte lead.  They leave out overlong forms
and surrogates. -/
def secondOfThree (lead : UInt8) : UInt8 → Bool :=
  if lead.toNat = 0xe0 then within 0xa0 0xbf
  else if lead.toNat = 0xed then within 0x80 0x9f
  else within 0x80 0xbf

/-- The bounds of the second byte after a four-byte lead.  They leave out overlong forms
and values above the last code point. -/
def secondOfFour (lead : UInt8) : UInt8 → Bool :=
  if lead.toNat = 0xf0 then within 0x90 0xbf
  else if lead.toNat = 0xf4 then within 0x80 0x8f
  else within 0x80 0xbf

/-- A continuation byte. -/
def isContinuation : UInt8 → Bool :=
  within 0x80 0xbf

/-- The code point with a given number.  Well-formed sequences stay below the bound, so
the remainder is the number itself. -/
def scalarOf (n : Nat) : Chunk :=
  .scalar (CodePoint.ofNat n)

/-- The six payload bits of a continuation byte. -/
def payload (b : UInt8) : Nat :=
  b.toNat - 0x80

/-- Read bytes as chunks. -/
def chunks : Bytes → List Chunk
  | [] => []
  | b₀ :: rest₀ =>
      if b₀.toNat < 0x80 then scalarOf b₀.toNat :: chunks rest₀
      else if within 0xc2 0xdf b₀ then
        match rest₀ with
        | [] => [.malformed [b₀]]
        | b₁ :: rest₁ =>
            if isContinuation b₁ then
              scalarOf ((b₀.toNat - 0xc0) * 0x40 + payload b₁) :: chunks rest₁
            else .malformed [b₀] :: chunks (b₁ :: rest₁)
      else if within 0xe0 0xef b₀ then
        match rest₀ with
        | [] => [.malformed [b₀]]
        | b₁ :: rest₁ =>
            if secondOfThree b₀ b₁ then
              match rest₁ with
              | [] => [.malformed [b₀, b₁]]
              | b₂ :: rest₂ =>
                  if isContinuation b₂ then
                    scalarOf ((b₀.toNat - 0xe0) * 0x1000 + payload b₁ * 0x40 + payload b₂)
                      :: chunks rest₂
                  else .malformed [b₀, b₁] :: chunks (b₂ :: rest₂)
            else .malformed [b₀] :: chunks (b₁ :: rest₁)
      else if within 0xf0 0xf4 b₀ then
        match rest₀ with
        | [] => [.malformed [b₀]]
        | b₁ :: rest₁ =>
            if secondOfFour b₀ b₁ then
              match rest₁ with
              | [] => [.malformed [b₀, b₁]]
              | b₂ :: rest₂ =>
                  if isContinuation b₂ then
                    match rest₂ with
                    | [] => [.malformed [b₀, b₁, b₂]]
                    | b₃ :: rest₃ =>
                        if isContinuation b₃ then
                          scalarOf ((b₀.toNat - 0xf0) * 0x40000 + payload b₁ * 0x1000
                            + payload b₂ * 0x40 + payload b₃) :: chunks rest₃
                        else .malformed [b₀, b₁, b₂] :: chunks (b₃ :: rest₃)
                  else .malformed [b₀, b₁] :: chunks (b₂ :: rest₂)
            else .malformed [b₀] :: chunks (b₁ :: rest₁)
      else .malformed [b₀] :: chunks rest₀

/-- The code point of a chunk, if it has one. -/
def Chunk.scalar? : Chunk → Option CodePoint
  | .scalar c => some c
  | .malformed _ => none

/-- The code point that shows for a chunk. -/
def Chunk.shown : Chunk → CodePoint
  | .scalar c => c
  | .malformed _ => CodePoint.ofNat 0xfffd

/-- Read bytes that must be well-formed throughout. -/
def decode? (bytes : Bytes) : Option Text :=
  (chunks bytes).mapM Chunk.scalar?

/-- Read any bytes, with U+FFFD for each malformed part. -/
def decodeLossy (bytes : Bytes) : Text :=
  (chunks bytes).map Chunk.shown

/-- The bytes of a code point that is not a surrogate. -/
def encodePoint (c : CodePoint) : Bytes :=
  let n := c.val
  if n < 0x80 then [UInt8.ofNat n]
  else if n < 0x800 then [UInt8.ofNat (0xc0 + n / 0x40), UInt8.ofNat (0x80 + n % 0x40)]
  else if n < 0x10000 then
    [UInt8.ofNat (0xe0 + n / 0x1000), UInt8.ofNat (0x80 + n / 0x40 % 0x40),
      UInt8.ofNat (0x80 + n % 0x40)]
  else
    [UInt8.ofNat (0xf0 + n / 0x40000), UInt8.ofNat (0x80 + n / 0x1000 % 0x40),
      UInt8.ofNat (0x80 + n / 0x40 % 0x40), UInt8.ofNat (0x80 + n % 0x40)]

/-- The bytes of a text, or `none` if a surrogate occurs in it. -/
def encode? (t : Text) : Option Bytes :=
  if t.any CodePoint.isSurrogate then none else some (t.flatMap encodePoint)

end Utf8

end MessageKeys
