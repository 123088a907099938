import Mathlib.Tactic.SplitIfs
import MessageKeys.Files.FileSystem
import MessageKeys.Proofs.Assoc
import MessageKeys.Proofs.Text.Utf8

/-!
# Walking along paths

A path may be handed to a file system exactly if each of its code points may (`usableBytes_ok_iff`).
Where there are no links, walking it ends where resolving it says (`place_of_locate`), though names
are shown there in the form in which they are stored.

Resolving takes `..` back without a look at the files, and walking goes through the directory
before.  The two agree on a path without `..`, and on any path that gets somewhere: every directory
that is left by its resolved form was on the way (`locate_resolve`).
-/

namespace MessageKeys

/-! ## Code points of paths -/

namespace PathName

/-- A code point that may stand in a path. -/
def isUsable (c : CodePoint) : Bool :=
  (pointBytes? c).isSome && c.val ≠ 0

theorem pointBytes?_of_scalar {c : CodePoint} (h : c.isSurrogate = false) :
    pointBytes? c = some (Utf8.encodePoint c) := by
  have hlone : loneByte? c = none := by
    simp only [CodePoint.isSurrogate, Bool.and_eq_false_iff, decide_eq_false_iff_not] at h
    unfold loneByte?
    rw [if_neg]
    simp only [Bool.and_eq_true, decide_eq_true_eq]
    omega
  unfold pointBytes?
  rw [hlone, h]
  rfl

theorem zero_not_mem_pointBytes {c : CodePoint} {bytes : Bytes} (h : pointBytes? c = some bytes)
    (hc : c.val ≠ 0) : (0 : UInt8) ∉ bytes := by
  have hlt := c.isLt
  have hbyte : ∀ n : Nat, 0 < n → n < 256 → (0 : UInt8) ≠ UInt8.ofNat n := by
    intro n hpos hlt heq
    have hval := congrArg UInt8.toNat heq
    rw [UInt8.toNat_ofNat_of_lt' hlt] at hval
    exact absurd hval (by simp; omega)
  unfold pointBytes? at h
  split at h
  · rename_i b hb
    unfold loneByte? at hb
    split at hb
    · rename_i hrange
      simp only [Bool.and_eq_true, decide_eq_true_eq] at hrange
      rw [← Option.some.inj h, ← Option.some.inj hb, List.mem_singleton]
      exact hbyte _ (by omega) (by omega)
    · contradiction
  · split at h
    · contradiction
    · rw [← Option.some.inj h]
      unfold Utf8.encodePoint
      dsimp only
      split_ifs <;> simp only [List.mem_cons, List.not_mem_nil, or_false, not_or]
      · exact hbyte _ (by omega) (by omega)
      · exact ⟨hbyte _ (by omega) (by omega), hbyte _ (by omega) (by omega)⟩
      · exact ⟨hbyte _ (by omega) (by omega), hbyte _ (by omega) (by omega),
          hbyte _ (by omega) (by omega)⟩
      · exact ⟨hbyte _ (by omega) (by omega), hbyte _ (by omega) (by omega),
          hbyte _ (by omega) (by omega), hbyte _ (by omega) (by omega)⟩

theorem bytes?_cons (c : CodePoint) (rest : Text) : bytes? (c :: rest) =
    (pointBytes? c).bind fun first => (bytes? rest).map (first ++ ·) := by
  unfold bytes?
  rw [List.mapM_cons]
  cases pointBytes? c with
  | none => rfl
  | some first => cases rest.mapM pointBytes? <;> rfl

theorem bytes?_append (front back : Text) : bytes? (front ++ back) =
    (bytes? front).bind fun first => (bytes? back).map (first ++ ·) := by
  induction front with
  | nil =>
      rw [List.nil_append]
      cases bytes? back <;> rfl
  | cons c rest ih =>
      rw [List.cons_append, bytes?_cons, bytes?_cons, ih]
      cases pointBytes? c with
      | none => rfl
      | some first =>
          cases bytes? rest with
          | none => rfl
          | some others => cases bytes? back <;> simp

theorem bytes?_map_ofLoneByte {part : Bytes} (h : ∀ b ∈ part, 0x80 ≤ b.toNat) :
    bytes? (part.map ofLoneByte) = some part := by
  induction part with
  | nil => rfl
  | cons b rest ih =>
      rw [List.forall_mem_cons] at h
      have hlt := b.toNat_lt
      have hval : (ofLoneByte b).val = 0xdc00 + b.toNat := Utf8.val_ofNat (by omega)
      have hpoint : pointBytes? (ofLoneByte b) = some [b] := by
        unfold pointBytes? loneByte?
        rw [hval, if_pos (by simp; omega), Utf8.ofNat_eq (b := b) (by omega)]
      rw [List.map_cons, bytes?_cons, hpoint, ih h.2]
      rfl

/-- The text that shows some bytes has these bytes. -/
theorem bytes?_ofBytes (bytes : Bytes) : bytes? (ofBytes bytes) = some bytes := by
  obtain ⟨hbytes, hregular⟩ := Utf8.makes_chunks bytes
  unfold ofBytes
  generalize Utf8.chunks bytes = parts at hbytes hregular ⊢
  subst hbytes
  induction parts with
  | nil => rfl
  | cons chunk rest ih =>
      rw [List.forall_mem_cons] at hregular
      rw [List.flatMap_cons, List.flatMap_cons, bytes?_append, ih hregular.2]
      cases chunk with
      | scalar c =>
          rw [bytes?_cons, pointBytes?_of_scalar hregular.1]
          simp [bytes?, Utf8.Chunk.bytes]
      | malformed part =>
          rw [bytes?_map_ofLoneByte hregular.1]
          rfl

theorem bytes?_stored (name : Text) : bytes? (stored name) = bytes? name := by
  unfold stored
  cases hbytes : bytes? name with
  | none => exact hbytes
  | some bytes => exact bytes?_ofBytes bytes

/-- A name is stored in the form in which it is shown. -/
theorem stored_stored (name : Text) : stored (stored name) = stored name := by
  have hsame := bytes?_stored name
  generalize hshown : stored name = shown at hsame ⊢
  unfold stored at hshown ⊢
  rw [hsame]
  cases hbytes : bytes? name with
  | none => rfl
  | some bytes =>
      rw [hbytes] at hshown
      exact hshown


/-- The zero byte is that of the code point zero alone. -/
theorem zero_mem_pointBytes_iff {c : CodePoint} {bytes : Bytes} (h : pointBytes? c = some bytes) :
    (0 : UInt8) ∈ bytes ↔ c.val = 0 := by
  constructor
  · intro hmem
    by_contra hc
    exact zero_not_mem_pointBytes h hc hmem
  · intro hc
    obtain rfl : c = CodePoint.ofNat 0 := Fin.ext hc
    rw [← Option.some.inj h]
    decide

/-- A text has bytes that can be used exactly if each of its code points has. -/
theorem usableBytes_ok_iff {t : Text} :
    (∃ bytes, usableBytes t = .ok bytes) ↔ ∀ c ∈ t, isUsable c = true := by
  have hsplit : (∃ bytes, usableBytes t = .ok bytes) ↔
      ∃ bytes, bytes? t = some bytes ∧ (0 : UInt8) ∉ bytes := by
    unfold usableBytes
    cases bytes? t with
    | none => simp
    | some bytes => by_cases hzero : (0 : UInt8) ∈ bytes <;> simp [hzero]
  rw [hsplit]
  clear hsplit
  induction t with
  | nil => simp [bytes?]
  | cons c rest ih =>
      rw [List.forall_mem_cons]
      refine Iff.trans ?_ (and_congr_right fun _ => ih)
      rw [bytes?_cons, isUsable]
      cases hpoint : pointBytes? c with
      | none => simp
      | some first =>
          cases bytes? rest with
          | none => simp
          | some others => simp [zero_mem_pointBytes_iff hpoint]

end PathName

theorem Text.mem_join_iff {separator : Text} {pieces : List Text} {c : CodePoint} :
    c ∈ Text.join separator pieces ↔
      (∃ piece ∈ pieces, c ∈ piece) ∨ (c ∈ separator ∧ 1 < pieces.length) := by
  unfold Text.join List.intercalate
  induction pieces with
  | nil => simp
  | cons first rest ih =>
      cases rest with
      | nil => simp
      | cons second others =>
          rw [List.intersperse_cons_cons, List.flatten_cons, List.flatten_cons, List.mem_append,
            List.mem_append, ih]
          simp only [List.mem_cons, List.length_cons]
          grind

namespace Path

/-- A path may be handed to a file system exactly if its components may. -/
theorem usableBytes_ok_iff {path : Path} :
    (∃ bytes, path.usableBytes = .ok bytes) ↔
      ∀ part ∈ path.parts, ∀ c ∈ part, PathName.isUsable c = true := by
  have hanchor : ∀ c ∈ anchorText path.anchor, PathName.isUsable c = true := by
    cases path.anchor <;> exact List.all_eq_true.mp rfl
  have hslash : ∀ c ∈ [PathName.slash], PathName.isUsable c = true := List.all_eq_true.mp rfl
  have hhere : ∀ c ∈ PathName.here, PathName.isUsable c = true := List.all_eq_true.mp rfl
  unfold usableBytes
  rw [PathName.usableBytes_ok_iff]
  constructor
  · intro h part hpart c hc
    have hmem : c ∈ anchorText path.anchor ++ Text.join [PathName.slash] path.parts :=
      List.mem_append_right _ (Text.mem_join_iff.mpr (Or.inl ⟨part, hpart, hc⟩))
    refine h c ?_
    unfold toText
    dsimp only
    rw [if_neg]
    · exact hmem
    · intro hempty
      rw [List.isEmpty_iff] at hempty
      rw [hempty] at hmem
      exact absurd hmem List.not_mem_nil
  · intro h c hc
    unfold toText at hc
    dsimp only at hc
    split_ifs at hc
    · exact hhere c hc
    · rcases List.mem_append.mp hc with hc | hc
      · exact hanchor c hc
      · rcases Text.mem_join_iff.mp hc with ⟨part, hpart, hc⟩ | ⟨hc, -⟩
        · exact h part hpart c hc
        · exact hslash c hc

/-- A path can be resolved exactly if it may be handed to a file system. -/
theorem fault?_eq_none_iff {path : Path} :
    path.fault? = none ↔ ∃ bytes, path.usableBytes = .ok bytes := by
  unfold fault?
  rw [usableBytes_ok_iff, List.findSome?_eq_none_iff]
  refine forall₂_congr fun part _ => ?_
  rw [← PathName.usableBytes_ok_iff]
  cases PathName.usableBytes part <;> simp

/-- A path whose components all say something, as a path that was read has them. -/
def Proper (path : Path) : Prop :=
  ∀ part ∈ path.parts, isPart part = true

theorem proper_ofText (text : Text) : (ofText text).Proper :=
  fun _ hpart => List.of_mem_filter hpart

theorem proper_child {directory : Path} (hdirectory : directory.Proper) {name : Text}
    (hname : isPart name = true) : (directory.child name).Proper :=
  List.forall_mem_append.mpr ⟨hdirectory, List.forall_mem_singleton.mpr hname⟩

/-- Components that each lead one directory further. -/
def Plain (components : List Text) : Prop :=
  ∀ component ∈ components, isPart component = true ∧ component ≠ PathName.up

end Path

namespace FileSystem

theorem eq_resolve {fs : FileSystem} {path : Path} {place : AbsolutePath}
    (h : fs.resolve? path = .ok place) : place = fs.resolve path := by
  unfold resolve? at h
  split at h
  · contradiction
  · exact (Except.ok.inj h).symm

/-! ## Without links -/

theorem landing_of_unlinked {fs : FileSystem} (hlinks : fs.links = []) (path : AbsolutePath) :
    fs.landing path = path := by
  unfold landing
  rw [hlinks]
  rfl

/-- Where there are no links, resolving is lexical. -/
theorem resolve_of_unlinked {fs : FileSystem} (hlinks : fs.links = []) (path : Path) :
    fs.resolve path = path.resolve fs.workingDirectory := by
  have hdescend : fs.descend = Path.descend := by
    funext directory component
    unfold descend Path.descend
    rw [hlinks]
    rfl
  unfold resolve Path.resolve
  cases path.anchor <;> simp only [hdescend]

theorem eq_resolve_of_unlinked {fs : FileSystem} (hlinks : fs.links = []) {path : Path}
    {place : AbsolutePath} (h : fs.resolve? path = .ok place) :
    place = path.resolve fs.workingDirectory :=
  (eq_resolve h).trans (resolve_of_unlinked hlinks path)

/-! ## Where a walk ends -/

theorem follow_append (fs : FileSystem) (here : AbsolutePath) (entry : Entry)
    (front back : List Text) :
    fs.follow here entry (front ++ back) =
      match fs.follow here entry front with
      | .error e => .error e
      | .ok (place, found) => fs.follow place found back := by
  induction front generalizing here entry with
  | nil => rfl
  | cons component rest ih =>
      cases entry with
      | file f => rfl
      | directory given =>
          rw [List.cons_append, follow.eq_def, follow.eq_def fs here (.directory given)]
          dsimp only
          split_ifs
          · exact ih _ _
          · exact ih _ _
          · rfl
          · cases fs.entry? (fs.landing (here ++ [PathName.stored component])) with
            | none => rfl
            | some found => exact ih _ _

/-- One step of a walk. -/
theorem follow_cons {fs : FileSystem} {here : AbsolutePath} {given : Option Int} {component : Text}
    {rest : List Text} {found : Entry}
    (hskip : ¬(component.isEmpty || decide (component = PathName.here)) = true)
    (hup : component ≠ PathName.up) (hlong : ¬isTooLong component = true)
    (hfound : fs.entry? (fs.landing (here ++ [PathName.stored component])) = some found) :
    fs.follow here (.directory given) (component :: rest)
      = fs.follow (fs.landing (here ++ [PathName.stored component])) found rest := by
  rw [follow.eq_def]
  dsimp only
  rw [if_neg hskip, if_neg hup, if_neg hlong, hfound]

/-- Where one more component leads, links apart. -/
def arrive (here : AbsolutePath) (component : Text) : AbsolutePath :=
  if component.isEmpty || component = PathName.here then here
  else if component = PathName.up then here.dropLast
  else here ++ [PathName.stored component]

theorem place_of_follow {fs : FileSystem} (hlinks : fs.links = []) {here place : AbsolutePath}
    {entry found : Entry} {components : List Text}
    (h : fs.follow here entry components = .ok (place, found)) :
    place = components.foldl arrive here := by
  induction components generalizing here entry with
  | nil =>
      rw [follow] at h
      exact (Prod.mk.inj (Except.ok.inj h)).1.symm
  | cons component rest ih =>
      cases entry with
      | file f => contradiction
      | directory given =>
          rw [follow.eq_def] at h
          dsimp only at h
          rw [landing_of_unlinked hlinks] at h
          rw [List.foldl_cons, arrive]
          split_ifs at h ⊢
          · exact ih h
          · exact ih h
          · split at h
            · exact ih h
            · contradiction

theorem not_skipped_of_isPart {component : Text} (h : Path.isPart component = true) :
    ¬(component.isEmpty || decide (component = PathName.here)) = true := by
  simp only [Path.isPart, Bool.and_eq_true, Bool.not_eq_true', decide_eq_true_eq] at h
  simp [h.1, h.2]

theorem arrive_of_isPart {component : Text} (h : Path.isPart component = true)
    (here : AbsolutePath) :
    arrive here component = if component = PathName.up then here.dropLast
      else here ++ [PathName.stored component] := by
  unfold arrive
  rw [if_neg (not_skipped_of_isPart h)]

theorem foldl_arrive_map_stored {parts : List Text} (h : ∀ part ∈ parts, Path.isPart part = true)
    (here : AbsolutePath) :
    parts.foldl arrive (here.map PathName.stored)
      = (parts.foldl Path.descend here).map PathName.stored := by
  induction parts generalizing here with
  | nil => rfl
  | cons part rest ih =>
      have hstep : arrive (here.map PathName.stored) part
          = (Path.descend here part).map PathName.stored := by
        rw [arrive_of_isPart (h part List.mem_cons_self), Path.descend]
        split_ifs
        · rw [List.map_dropLast]
        · rw [List.map_append, List.map_singleton]
      rw [List.foldl_cons, List.foldl_cons, hstep, ih fun other hother =>
        h other (List.mem_cons_of_mem part hother)]

theorem foldl_arrive_plain {components : List Text} (h : Path.Plain components)
    (here : AbsolutePath) :
    components.foldl arrive here = here ++ components.map PathName.stored := by
  induction components generalizing here with
  | nil => rw [List.foldl_nil, List.map_nil, List.append_nil]
  | cons component rest ih =>
      obtain ⟨hpart, hup⟩ := h component List.mem_cons_self
      rw [List.foldl_cons, arrive_of_isPart hpart, if_neg hup, ih fun other hother =>
        h other (List.mem_cons_of_mem component hother)]
      simp

/-- Walking a path ends where resolving it says. -/
theorem map_stored_resolve {fs : FileSystem} (hworking : Path.Plain fs.workingDirectory)
    {path : Path} (hpath : path.Proper) :
    (path.resolve fs.workingDirectory).map PathName.stored
      = (fs.fromRoot path).foldl arrive [] := by
  unfold Path.resolve fromRoot
  cases path.anchor with
  | relative =>
      dsimp only
      rw [List.foldl_append, foldl_arrive_plain hworking, List.nil_append,
        foldl_arrive_map_stored hpath]
  | root => exact (foldl_arrive_map_stored hpath []).symm
  | doubleRoot => exact (foldl_arrive_map_stored hpath []).symm

/-! ## Paths that can be looked up -/

theorem usable_cases (path : Path) :
    (∃ fault, path.usableBytes = .error fault ∧ usable path = .error (.path fault)) ∨
      ∃ bytes, path.usableBytes = .ok bytes ∧
        (usable path = .error (.os .nameTooLong) ∨ usable path = .ok ()) := by
  unfold usable
  cases path.usableBytes with
  | error fault => exact Or.inl ⟨fault, rfl, rfl⟩
  | ok bytes =>
      refine Or.inr ⟨bytes, rfl, ?_⟩
      dsimp only
      split_ifs
      · exact Or.inl rfl
      · exact Or.inr rfl

theorem usable_of_not_isOverlong {path : Path} (hlong : isOverlong path = false)
    (h : ∀ part ∈ path.parts, ∀ c ∈ part, PathName.isUsable c = true) : usable path = .ok () := by
  obtain ⟨bytes, hbytes⟩ := Path.usableBytes_ok_iff.mpr h
  rcases usable_cases path with ⟨fault, hfault, -⟩ | ⟨-, -, hoverlong | hok⟩
  · rw [hbytes] at hfault
    contradiction
  · unfold isOverlong at hlong
    rw [hoverlong] at hlong
    contradiction
  · exact hok

theorem locate_of_usable {fs : FileSystem} {path : Path} (h : usable path = .ok ()) :
    fs.locate path = (fs.walk path).mapError .os := by
  unfold locate
  rw [h]

theorem usable_of_locate {fs : FileSystem} {path : Path} {result : AbsolutePath × Entry}
    (h : fs.locate path = .ok result) : usable path = .ok () ∧ fs.walk path = .ok result := by
  unfold locate at h
  cases husable : usable path with
  | error e =>
      rw [husable] at h
      contradiction
  | ok u =>
      rw [husable] at h
      refine ⟨rfl, ?_⟩
      cases hwalk : fs.walk path with
      | error e =>
          rw [hwalk] at h
          contradiction
      | ok found =>
          rw [hwalk] at h
          rw [Except.ok.inj h]

theorem place_of_locate {fs : FileSystem} (hlinks : fs.links = [])
    (hworking : Path.Plain fs.workingDirectory) {path : Path} (hpath : path.Proper)
    {place : AbsolutePath} {entry : Entry} (h : fs.locate path = .ok (place, entry)) :
    place = (path.resolve fs.workingDirectory).map PathName.stored := by
  unfold locate at h
  split at h
  · contradiction
  · rw [map_stored_resolve hworking hpath]
    cases hwalk : fs.walk path with
    | error e =>
        rw [hwalk] at h
        contradiction
    | ok result =>
        rw [hwalk] at h
        obtain rfl : result = (place, entry) := Except.ok.inj h
        exact place_of_follow hlinks hwalk

theorem parts_usable_of_usable {path : Path} (h : usable path = .ok ()) :
    ∀ part ∈ path.parts, ∀ c ∈ part, PathName.isUsable c = true := by
  rw [← Path.usableBytes_ok_iff]
  rcases usable_cases path with ⟨fault, -, hfault⟩ | ⟨bytes, hbytes, -⟩
  · rw [h] at hfault
    contradiction
  · exact ⟨bytes, hbytes⟩

theorem parts_usable_of_locate {fs : FileSystem} {path : Path} {result : AbsolutePath × Entry}
    (h : fs.locate path = .ok result) :
    ∀ part ∈ path.parts, ∀ c ∈ part, PathName.isUsable c = true :=
  parts_usable_of_usable (usable_of_locate h).1

/-! ## Walking by the resolved path -/

theorem entry_of_follow {fs : FileSystem} {here place : AbsolutePath} {entry found : Entry}
    {components : List Text} (hentry : entry = (fs.entry? here).getD (.directory none))
    (h : fs.follow here entry components = .ok (place, found)) :
    found = (fs.entry? place).getD (.directory none) := by
  induction components generalizing here entry with
  | nil =>
      obtain ⟨rfl, rfl⟩ := Prod.mk.inj (Except.ok.inj h)
      exact hentry
  | cons component rest ih =>
      cases entry with
      | file f => contradiction
      | directory given =>
          rw [follow.eq_def] at h
          dsimp only at h
          split_ifs at h
          · exact ih hentry h
          · exact ih rfl h
          · split at h
            · rename_i next hnext
              refine ih ?_ h
              rw [hnext]
              rfl
            · contradiction

/-- What a path leads to is an entry, or a directory that was given no time. -/
theorem readFile_of_locate {fs : FileSystem} {path : Path} {place : AbsolutePath} {f : File}
    (h : fs.locate path = .ok (place, .file f)) : fs.readFile path = .ok f := by
  unfold readFile
  rw [h]

theorem mem_entries_of_locate {fs : FileSystem} {path : Path} {place : AbsolutePath} {entry : Entry}
    (h : fs.locate path = .ok (place, entry)) :
    entry = .directory none ∨ (place, entry) ∈ fs.entries := by
  have hentry := entry_of_follow rfl (usable_of_locate h).2
  unfold entry? at hentry
  split_ifs at hentry
  · exact Or.inl hentry
  · cases hget : Assoc.get? place fs.entries with
    | none =>
        rw [hget] at hentry
        exact Or.inl hentry
    | some found =>
        rw [hget] at hentry
        obtain rfl : entry = found := hentry
        exact Or.inr (Assoc.mem_of_get? hget)

theorem entry?_of_locate {fs : FileSystem} {path : Path} {place : AbsolutePath} {f : File}
    (h : fs.locate path = .ok (place, .file f)) : fs.entry? place = some (.file f) := by
  have hentry := entry_of_follow rfl (usable_of_locate h).2
  cases hfound : fs.entry? place with
  | none =>
      rw [hfound] at hentry
      contradiction
  | some found =>
      rw [hfound] at hentry
      exact congrArg some hentry.symm

theorem isDirectory_of_locate {fs : FileSystem} {path : Path} {place : AbsolutePath}
    {given : Option Int} (h : fs.locate path = .ok (place, .directory given)) :
    fs.isDirectory path = .ok true := by
  unfold isDirectory leadsTo
  rw [h]
  rfl

/-- The walk along an absolute path without its last component. -/
theorem follow_dropLast {fs : FileSystem} (hlinks : fs.links = []) {stack : List Text}
    {here : AbsolutePath} {entry : Entry} (hstack : Path.Plain stack)
    (h : fs.follow [] (.directory none) stack = .ok (here, entry)) :
    fs.follow [] (.directory none) stack.dropLast
      = .ok (here.dropLast, (fs.entry? here.dropLast).getD (.directory none)) := by
  rcases List.eq_nil_or_concat stack with rfl | ⟨front, last, rfl⟩
  · obtain ⟨rfl, rfl⟩ := Prod.mk.inj (Except.ok.inj h)
    rfl
  · rw [List.concat_eq_append] at h hstack ⊢
    obtain ⟨hpart, hup⟩ := hstack last (by simp)
    rw [List.dropLast_concat]
    rw [follow_append] at h
    split at h
    · contradiction
    · rename_i parent found hfront
      have hhere := place_of_follow hlinks h
      rw [List.foldl_cons, List.foldl_nil, arrive_of_isPart hpart, if_neg hup] at hhere
      rw [hhere, List.dropLast_concat, hfront, ← entry_of_follow rfl hfront]

theorem follow_up {fs : FileSystem} {here place : AbsolutePath} {entry found : Entry} {part : Text}
    (hup : part = PathName.up) (h : fs.follow here entry [part] = .ok (place, found)) :
    (place, found) = (here.dropLast, (fs.entry? here.dropLast).getD (.directory none)) := by
  subst hup
  cases entry with
  | file f => contradiction
  | directory given => exact (Except.ok.inj h).symm

/-- A walk that gets somewhere gets there by the resolved components as well. -/
theorem follow_descend {fs : FileSystem} (hlinks : fs.links = []) {parts : List Text}
    (hparts : ∀ part ∈ parts, Path.isPart part = true) (stack : List Text)
    (hstack : Path.Plain stack)
    {here place : AbsolutePath} {entry found : Entry}
    (hhere : fs.follow [] (.directory none) stack = .ok (here, entry))
    (h : fs.follow here entry parts = .ok (place, found)) :
    fs.follow [] (.directory none) (parts.foldl Path.descend stack) = .ok (place, found) := by
  induction parts generalizing stack here entry with
  | nil => rw [List.foldl_nil, hhere, ← h, follow]
  | cons part rest ih =>
      rw [List.forall_mem_cons] at hparts
      rw [List.foldl_cons, Path.descend]
      rw [← List.singleton_append, follow_append] at h
      split at h
      · contradiction
      · rename_i next step hstep
        by_cases hup : part = PathName.up
        · have hback := follow_dropLast hlinks hstack hhere
          obtain ⟨rfl, rfl⟩ := Prod.mk.inj (follow_up hup hstep)
          rw [if_pos hup]
          exact ih hparts.2 _ (fun component hmem =>
            hstack component ((List.dropLast_sublist stack).subset hmem)) hback h
        · rw [if_neg hup]
          refine ih hparts.2 _ ?_ ?_ h
          · intro component hmem
            rcases List.mem_append.mp hmem with hmem | hmem
            · exact hstack component hmem
            · rw [List.mem_singleton.mp hmem]
              exact ⟨hparts.1, hup⟩
          · rw [follow_append, hhere]
            exact hstep

theorem foldl_descend_of_not_mem {parts : List Text} (h : PathName.up ∉ parts)
    (here : AbsolutePath) : parts.foldl Path.descend here = here ++ parts := by
  induction parts generalizing here with
  | nil => rw [List.foldl_nil, List.append_nil]
  | cons part rest ih =>
      rw [List.mem_cons, not_or] at h
      rw [List.foldl_cons, Path.descend, if_neg (Ne.symm h.1), ih h.2, List.append_assoc,
        List.singleton_append]

theorem plain_foldl_descend {parts : List Text} (hparts : ∀ part ∈ parts, Path.isPart part = true)
    {here : AbsolutePath} (hhere : Path.Plain here) :
    Path.Plain (parts.foldl Path.descend here) := by
  induction parts generalizing here with
  | nil => exact hhere
  | cons part rest ih =>
      obtain ⟨hpart, hrest⟩ := List.forall_mem_cons.mp hparts
      refine ih hrest ?_
      unfold Path.descend
      split_ifs with hup
      · exact fun component hmem => hhere component ((List.dropLast_sublist here).subset hmem)
      · intro component hmem
        rcases List.mem_append.mp hmem with hmem | hmem
        · exact hhere component hmem
        · rw [List.mem_singleton.mp hmem]
          exact ⟨hpart, hup⟩

/-- Resolving leaves components that each lead one directory further. -/
theorem plain_resolve {workingDirectory : AbsolutePath} (hworking : Path.Plain workingDirectory)
    {path : Path} (hpath : path.Proper) : Path.Plain (path.resolve workingDirectory) := by
  unfold Path.resolve
  split
  · exact plain_foldl_descend hpath hworking
  · exact plain_foldl_descend hpath nofun

/-- An absolute path is its own resolved form. -/
theorem resolve_ofAbsolute {place : AbsolutePath} (h : Path.Plain place)
    (workingDirectory : AbsolutePath) :
    (Path.ofAbsolute place).resolve workingDirectory = place := by
  have hup : PathName.up ∉ place := fun hmem => (h _ hmem).2 rfl
  exact foldl_descend_of_not_mem hup []

/-- A path without `..`, or one that gets somewhere, leads where its resolved form leads. -/
theorem locate_resolve {fs : FileSystem} (hlinks : fs.links = [])
    (hworking : Path.Plain fs.workingDirectory) {path : Path} (hpath : path.Proper)
    (husable : usable path = .ok ())
    (hresolved : usable (Path.ofAbsolute (path.resolve fs.workingDirectory)) = .ok ())
    (h : PathName.up ∉ path.parts ∨ ∃ found, fs.locate path = .ok found) :
    fs.locate (Path.ofAbsolute (path.resolve fs.workingDirectory)) = fs.locate path := by
  rw [locate_of_usable hresolved, locate_of_usable husable]
  rcases h with hup | ⟨⟨place, found⟩, hfound⟩
  · have hroot : path.resolve fs.workingDirectory = fs.fromRoot path := by
      unfold Path.resolve fromRoot
      cases path.anchor with
      | relative => exact foldl_descend_of_not_mem hup _
      | root => exact foldl_descend_of_not_mem hup _
      | doubleRoot => exact foldl_descend_of_not_mem hup _
    unfold walk
    rw [← hroot]
    rfl
  · have hwalk := (usable_of_locate hfound).2
    have hback : fs.walk (Path.ofAbsolute (path.resolve fs.workingDirectory))
        = .ok (place, found) := by
      unfold walk fromRoot at hwalk
      unfold walk Path.resolve
      cases hanchor : path.anchor with
      | relative =>
          rw [hanchor] at hwalk
          dsimp only at hwalk
          rw [follow_append] at hwalk
          split at hwalk
          · contradiction
          · rename_i here entry hhere
            exact follow_descend hlinks hpath _ hworking hhere hwalk
      | root =>
          rw [hanchor] at hwalk
          exact follow_descend hlinks hpath [] nofun rfl hwalk
      | doubleRoot =>
          rw [hanchor] at hwalk
          exact follow_descend hlinks hpath [] nofun rfl hwalk
    rw [hwalk, hback]

end FileSystem

end MessageKeys
