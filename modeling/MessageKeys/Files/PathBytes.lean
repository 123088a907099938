import MessageKeys.Files.Path
import MessageKeys.Text.Utf8

/-!
# Paths as bytes

A file system takes paths as bytes.  They are the UTF-8 form of the path's text, except
that a code point from U+DC80 to U+DCFF stands for one byte: names that are not UTF-8 are
shown that way.  Any other surrogate has no bytes, and a zero byte would end the path, so
that such paths cannot be used at all.
-/

namespace MessageKeys

/-- Why a path has no form in bytes that can be used. -/
inductive PathFault where
  | unencodable
  | zeroByte
  deriving DecidableEq, Repr

namespace PathName

/-- The byte that a code point stands for by itself. -/
def loneByte? (c : CodePoint) : Option UInt8 :=
  if 0xdc80 ≤ c.val && c.val ≤ 0xdcff then some (UInt8.ofNat (c.val - 0xdc00)) else none

/-- The code point that stands for a byte by itself. -/
def ofLoneByte (b : UInt8) : CodePoint :=
  CodePoint.ofNat (0xdc00 + b.toNat)

/-- The bytes of a code point in a path. -/
def pointBytes? (c : CodePoint) : Option Bytes :=
  match loneByte? c with
  | some b => some [b]
  | none => if c.isSurrogate then none else some (Utf8.encodePoint c)

/-- The bytes of a path. -/
def bytes? (text : Text) : Option Bytes :=
  (text.mapM pointBytes?).map List.flatten

/-- The text that shows a path in bytes. -/
def ofBytes (bytes : Bytes) : Text :=
  (Utf8.chunks bytes).flatMap fun chunk =>
    match chunk with
    | .scalar c => [c]
    | .malformed part => part.map ofLoneByte

/-- The text that shows a name once it is stored: code points that stand for bytes are
gone where these bytes are UTF-8 after all. -/
def stored (name : Text) : Text :=
  match bytes? name with
  | some bytes => ofBytes bytes
  | none => name

/-- The bytes of a path that can be used. -/
def usableBytes (text : Text) : Except PathFault Bytes :=
  match bytes? text with
  | none => .error .unencodable
  | some bytes => if bytes.contains 0 then .error .zeroByte else .ok bytes

end PathName

/-- The wording for a zero byte in a path. -/
def PathFault.zeroByteMessage : Text := "embedded null byte"

namespace Path

/-- The bytes of a path, as it is handed to a file system. -/
def usableBytes (path : Path) : Except PathFault Bytes :=
  PathName.usableBytes path.toText

/-- What is wrong with the first component that cannot be used. -/
def fault? (path : Path) : Option PathFault :=
  path.parts.findSome? fun component =>
    match PathName.usableBytes component with
    | .error fault => some fault
    | .ok _ => none

end Path

end MessageKeys
