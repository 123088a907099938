import MessageKeys.Messages.Pruning
import MessageKeys.Proofs.Files.Outline
import MessageKeys.Proofs.Messages.Storage

/-!
# Runs of pruning

What pruning does to one document depends on its content and the fault of its file alone
(`verdict`).  The document is passed over, written without the keys as far as the file can be
written, or the run stops there (`Judged`).  A step of the run applies the verdict and changes no
other file (`document_step`).

A run takes the outcomes of the documents one after the other, and comes no further than the first
document that stops it or whose outcome is not taken (`reached`).  It applies the verdicts on these
documents and leaves the others alone (`foldl_documentIf`).  The induction is on the documents that
are still to be pruned; what it carries along is that these are as they were, and that the outline
of the file system stays.

Whatever the links of the file system are, only files change to which the path of a document leads
(`changed_of_pruneWhile`).
-/

namespace MessageKeys

/-! ## The documents of a directory -/

theorem length_of_isDocumentName {name : Text} (h : isDocumentName name = true) :
    5 ≤ name.length := by
  obtain ⟨front, rfl⟩ := List.isSuffixOf_iff_suffix.mp h
  rw [List.length_append]
  exact Nat.le_add_left 5 _

theorem isPart_of_isDocumentName {name : Text} (h : isDocumentName name = true) :
    Path.isPart name = true ∧ name ≠ PathName.up := by
  have hlength := length_of_isDocumentName h
  have hne : ∀ other : Text, other.length < 5 → name ≠ other := by
    rintro other hother rfl
    omega
  refine ⟨?_, hne _ (by decide)⟩
  simp [Path.isPart, hne [] (by decide), hne PathName.here (by decide)]

theorem mem_fileNames {entries : List (Text × Entry)} {name : Text} :
    name ∈ fileNames entries ↔ ∃ f, (name, .file f) ∈ entries := by
  unfold fileNames
  dsimp only
  rw [List.mem_mergeSort, List.mem_filterMap]
  constructor
  · rintro ⟨⟨other, entry⟩, hmem, hname⟩
    cases entry with
    | directory given => simp [Entry.isDirectory] at hname
    | file f =>
        obtain rfl : other = name := by simpa [Entry.isDirectory] using hname
        exact ⟨f, hmem⟩
  · rintro ⟨f, hmem⟩
    exact ⟨_, hmem, rfl⟩

theorem names_filterMap_sublist (entries : List (Text × Entry)) :
    (entries.filterMap fun (name, entry) => if entry.isDirectory then none else some name).Sublist
      (Assoc.names entries) := by
  unfold Assoc.names
  induction entries with
  | nil => exact List.Sublist.refl _
  | cons first rest ih =>
      obtain ⟨name, entry⟩ := first
      cases entry with
      | directory given => exact ih.cons _
      | file f => exact ih.cons_cons _

theorem pairwise_fileNames {entries : List (Text × Entry)} (h : (Assoc.names entries).Nodup) :
    (fileNames entries).Pairwise (· < ·) := by
  unfold fileNames
  dsimp only
  have hnodup := h.sublist (names_filterMap_sublist entries)
  set names := entries.filterMap fun (name, entry) =>
    if entry.isDirectory then none else some name
  have hle : ∀ a b : Text, (!decide (b < a)) = true ↔ ¬b < a := by
    intro a b
    rw [Bool.not_eq_true', decide_eq_false_iff_not]
  have hsorted : (names.mergeSort fun a b => !decide (b < a)).Pairwise fun a b => ¬b < a := by
    refine (List.pairwise_mergeSort ?_ ?_ names).imp fun {a b} => (hle a b).mp
    · intro a b c
      rw [hle, hle, hle]
      intro hab hbc
      exact List.not_lt.mpr (List.le_trans (List.not_lt.mp hab) (List.not_lt.mp hbc))
    · intro a b
      rw [Bool.or_eq_true, hle, hle]
      exact (List.le_total a b).imp List.not_lt.mpr List.not_lt.mpr
  rw [← (List.mergeSort_perm names fun a b => !decide (b < a)).nodup_iff] at hnodup
  -- distinct names in order are in strict order
  refine (List.pairwise_and_iff.mpr ⟨hsorted, hnodup⟩).imp fun {a b} hab => ?_
  rcases List.le_iff_lt_or_eq.mp (List.not_lt.mp hab.1) with hlt | heq
  · exact hlt
  · exact absurd heq hab.2

/-- Of names in order, those before a name are the lesser ones. -/
theorem mem_earlier_iff {earlier later : List Text} {name other : Text}
    (h : (earlier ++ name :: later).Pairwise (· < ·)) :
    other ∈ earlier ↔ other ∈ earlier ++ name :: later ∧ other < name := by
  obtain ⟨-, hlater, hearlier⟩ := List.pairwise_append.mp h
  constructor
  · intro hother
    exact ⟨List.mem_append_left _ hother, hearlier other hother name List.mem_cons_self⟩
  · rintro ⟨hother, hlt⟩
    rcases List.mem_append.mp hother with hbefore | hafter
    · exact hbefore
    · rcases List.mem_cons.mp hafter with rfl | hafter
      · exact absurd hlt (List.lt_irrefl other)
      · have hgt := (List.pairwise_cons.mp hlater).1 other hafter
        exact absurd (List.lt_trans hlt hgt) (List.lt_irrefl other)

namespace FileSystem

/-- The names of the documents at a place, in order. -/
def documentNames (fs : FileSystem) (place : AbsolutePath) : List Text :=
  fileNames ((fs.list place).filter fun (name, _) => isDocumentName name)

theorem isDocumentName_of_mem_documentNames {fs : FileSystem} {place : AbsolutePath} {name : Text}
    (h : name ∈ fs.documentNames place) : isDocumentName name = true := by
  obtain ⟨f, hmem⟩ := mem_fileNames.mp h
  exact (List.mem_filter.mp hmem).2

theorem mem_documentNames {fs : FileSystem} (hfs : fs.WellFormed) {place : AbsolutePath}
    {name : Text} : name ∈ fs.documentNames place ↔
      isDocumentName name = true ∧ ∃ f, fs.entry? (place ++ [name]) = some (.file f) := by
  unfold documentNames
  rw [mem_fileNames]
  simp only [List.mem_filter, mem_list hfs.unlinked, entry?_eq_some_iff hfs
    (List.append_ne_nil_of_right_ne_nil place (List.cons_ne_nil name [])), exists_and_right]
  exact and_comm

theorem pairwise_documentNames {fs : FileSystem} (hfs : fs.WellFormed) (place : AbsolutePath) :
    (fs.documentNames place).Pairwise (· < ·) := by
  refine pairwise_fileNames ((nodup_names_list hfs place).sublist ?_)
  exact (List.filter_sublist).map Prod.fst

/-- A directory in which documents are pruned. -/
structure Site (fs : FileSystem) (directory : Path) (place : AbsolutePath) (names : List Text) :
    Prop where
  wellFormed : fs.WellFormed
  located : ∃ given, fs.locate directory = .ok (place, .directory given)
  documents : ∀ name ∈ names, isDocumentName name = true ∧
    isOverlong (directory.child name) = false ∧ ∃ f, fs.entry? (place ++ [name]) = some (.file f)

/-- The documents of a directory are its files with a document's name, if none is out of reach. -/
theorem documents?_eq_some_iff {fs : FileSystem} {directory : Path} {paths : List Path} :
    fs.documents? directory = .ok (some paths) ↔
      ∃ place given, fs.locate directory = .ok (place, .directory given) ∧
        (∀ name ∈ fs.namesIn place, isDocumentName name = true →
          isOverlong (directory.child name) = false) ∧
        paths = (fs.documentNames place).map directory.child := by
  have hany : ∀ place, ((fs.namesIn place).any fun name =>
      isDocumentName name && isOverlong (directory.child name)) = false ↔
      ∀ name ∈ fs.namesIn place, isDocumentName name = true →
        isOverlong (directory.child name) = false := by
    intro place
    simp only [List.any_eq_false, Bool.and_eq_true, not_and, Bool.not_eq_true]
  constructor
  · intro h
    unfold documents? at h
    split at h
    · rename_i place given hlocate
      dsimp only at h
      split_ifs at h with hlong
      rw [Bool.not_eq_true] at hlong
      exact ⟨place, given, hlocate, (hany place).mp hlong,
        (Option.some.inj (Except.ok.inj h)).symm⟩
    · contradiction
    · cases Except.ok.inj h
  · rintro ⟨place, given, hlocate, hlong, rfl⟩
    unfold documents?
    rw [hlocate]
    dsimp only
    rw [(hany place).mpr hlong, if_neg Bool.false_ne_true]
    rfl

theorem mem_namesIn_of_stored {fs : FileSystem} {place : AbsolutePath} {name : Text} {entry : Entry}
    (h : fs.entry? (place ++ [name]) = some entry) : name ∈ fs.namesIn place := by
  rw [entry?_of_ne_nil fs (by simp)] at h
  refine List.mem_filterMap.mpr ⟨place ++ [name], List.mem_append_left _ ?_, ?_⟩
  · exact List.mem_map_of_mem (Assoc.mem_of_get? h)
  · exact nameIn?_eq_some_iff.mpr rfl

theorem site_of_documents? {fs : FileSystem} (hfs : fs.WellFormed) {directory : Path}
    {place : AbsolutePath} {given : Option Int}
    (hlocate : fs.locate directory = .ok (place, .directory given)) {paths : List Path}
    (h : fs.documents? directory = .ok (some paths)) :
    Site fs directory place (fs.documentNames place) ∧
      paths = (fs.documentNames place).map directory.child := by
  obtain ⟨place', given', hlocate', hlong, hpaths⟩ := documents?_eq_some_iff.mp h
  obtain rfl : place = place' := (Prod.mk.inj (Except.ok.inj (hlocate.symm.trans hlocate'))).1
  refine ⟨⟨hfs, ⟨given, hlocate⟩, fun name hname => ?_⟩, hpaths⟩
  obtain ⟨hdocument, f, hf⟩ := (mem_documentNames hfs).mp hname
  exact ⟨hdocument, hlong name (mem_namesIn_of_stored hf) hdocument, f, hf⟩

theorem Site.locate {fs : FileSystem} {directory : Path} {place : AbsolutePath} {names : List Text}
    (h : Site fs directory place names) {name : Text} (hname : name ∈ names) {f : File}
    (hf : fs.entry? (place ++ [name]) = some (.file f)) :
    fs.locate (directory.child name) = .ok (place ++ [name], .file f) := by
  obtain ⟨hdocument, hlong, -⟩ := h.documents name hname
  obtain ⟨hpart, hup⟩ := isPart_of_isDocumentName hdocument
  obtain ⟨given, hlocated⟩ := h.located
  exact locate_child h.wellFormed hlocated hf hpart hup hlong

end FileSystem

/-! ## Verdicts -/

/-- Content at which a run of pruning ends, in a file with a fault or without. -/
inductive EndsPruning [Json.Limits] (keys : List Text) (fault : Option WriteFault)
    (content : Bytes) : Prop where
  | undecodable (h : Utf8.decode? content = none)
  | tooManyDigits {text : Text} (htext : Utf8.decode? content = some text) {count : Nat}
      (h : Json.read (Document.universalNewlines text) = .error (.tooManyDigits count))
  | tooDeep {text : Text} (htext : Utf8.decode? content = some text)
      (h : Json.read (Document.universalNewlines text) = .error .tooDeep)
  | tooDeepToWrite {text : Text} (htext : Utf8.decode? content = some text) {document : Document}
      (h : Json.read (Document.universalNewlines text) = .ok (.obj document))
      (hdepth : Json.Limits.writeDepth < Json.depth (.obj (document.eraseKeys keys).1))
  | unwritable {text : Text} (htext : Utf8.decode? content = some text) {document : Document}
      (h : Json.read (Document.universalNewlines text) = .ok (.obj document))
      (hsurrogate : (document.eraseKeys keys).1.hasSurrogate = true)
      (hopened : ∀ reason, fault ≠ some (.refused reason))

namespace Pruning

/-- What pruning makes of a document. -/
structure Verdict where
  /-- The outcome that is reported. -/
  outcome? : Option PruneOutcome := none
  /-- The content that the file is given. -/
  written? : Option Bytes := none
  /-- Why the run stops here. -/
  stopped : Option PruneError := none

/-- The file after a verdict. -/
def Verdict.file (v : Verdict) (f : File) : File :=
  match v.written? with
  | some content => ⟨content, f.modified + 1, default⟩
  | none => f

/-- The verdict on a document that could be loaded, by what writing it does. -/
def Verdict.ofWrite (path : Path) (removed : Nat) : Option Bytes × Option WriteError → Verdict
  | (written?, none) => { outcome? := some ⟨path, removed, none⟩, written? }
  | (written?, some (.failed reason)) =>
      { outcome? := some ⟨path, 0, some ⟨path.toText, .invalid reason⟩⟩, written? }
  | (written?, some e) => { written?, stopped := some (.write e) }

/-- The content of the file at a place. -/
def contentAt (fs : FileSystem) (place : AbsolutePath) : Bytes :=
  match fs.entry? place with
  | some (.file f) => f.content
  | _ => []

theorem contentAt_of_file {fs : FileSystem} {place : AbsolutePath} {f : File}
    (h : fs.entry? place = some (.file f)) : contentAt fs place = f.content := by
  unfold contentAt
  rw [h]

section

variable [Json.Limits]

/-- The verdict on a document, by what loading it gives and the fault of its file. -/
def verdict (keys : List Text) (fault : Option WriteFault) (path : Path)
    (loaded : Except LoadError Document) : Verdict :=
  match loaded with
  | .error (.unusable failure) => { outcome? := some ⟨path, 0, some failure⟩ }
  | .error e => { stopped := some (.load e) }
  | .ok document =>
      .ofWrite path (document.eraseKeys keys).2 ((document.eraseKeys keys).1.write fault)

/-- What pruning can make of a document. -/
inductive Judged (keys : List Text) (path : Path) (content : Bytes) :
    Option WriteFault → Verdict → Prop
  /-- There is no document, which is reported. -/
  | unusable {fault : Option WriteFault} {failure : LoadFailure}
      (hdecode : Document.decode path.toText content = .error (.unusable failure)) :
      Judged keys path content fault { outcome? := some ⟨path, 0, some failure⟩ }
  /-- There is no document, and the run stops. -/
  | unloadable {fault : Option WriteFault} {e : LoadError}
      (hdecode : Document.decode path.toText content = .error e)
      (he : ∀ failure, e ≠ .unusable failure) :
      Judged keys path content fault { stopped := some (.load e) }
  /-- What is left of the document is too deep for the writer. -/
  | refused {fault : Option WriteFault} {document : Document} {refusal : Json.Refusal}
      (hdecode : Document.decode path.toText content = .ok document)
      (hdepth : Json.Limits.writeDepth < Json.depth (.obj (document.eraseKeys keys).1)) :
      Judged keys path content fault { stopped := some (.write (.refused refusal)) }
  /-- The file cannot be opened, which is reported. -/
  | denied {document : Document} {reason : Text}
      (hdecode : Document.decode path.toText content = .ok document)
      (hdepth : Json.depth (.obj (document.eraseKeys keys).1) ≤ Json.Limits.writeDepth) :
      Judged keys path content (some (.refused reason))
        { outcome? := some ⟨path, 0, some ⟨path.toText, .invalid reason⟩⟩ }
  /-- The file is emptied, and the run stops since the text has no bytes. -/
  | unencodable {fault : Option WriteFault} {document : Document}
      (hdecode : Document.decode path.toText content = .ok document)
      (hdepth : Json.depth (.obj (document.eraseKeys keys).1) ≤ Json.Limits.writeDepth)
      (hopened : ∀ reason, fault ≠ some (.refused reason))
      (hsurrogate : (document.eraseKeys keys).1.hasSurrogate = true) :
      Judged keys path content fault
        { written? := some [], stopped := some (.write .unencodable) }
  /-- Not all of the text gets to the file, which is reported. -/
  | cut {document : Document} {bytes : Bytes} {kept : Nat} {reason : Text}
      (hdecode : Document.decode path.toText content = .ok document)
      (hdepth : Json.depth (.obj (document.eraseKeys keys).1) ≤ Json.Limits.writeDepth)
      (hbytes : Utf8.encode? (document.eraseKeys keys).1.render = some bytes) :
      Judged keys path content (some (.cut kept reason))
        { outcome? := some ⟨path, 0, some ⟨path.toText, .invalid reason⟩⟩
          written? := some (bytes.take kept) }
  /-- The document is written without the keys. -/
  | whole {document : Document} {bytes : Bytes}
      (hdecode : Document.decode path.toText content = .ok document)
      (hdepth : Json.depth (.obj (document.eraseKeys keys).1) ≤ Json.Limits.writeDepth)
      (hbytes : Utf8.encode? (document.eraseKeys keys).1.render = some bytes) :
      Judged keys path content none
        { outcome? := some ⟨path, (document.eraseKeys keys).2, none⟩, written? := some bytes }

theorem judged_verdict (keys : List Text) (fault : Option WriteFault) (path : Path)
    (content : Bytes) : Judged keys path content fault
      (verdict keys fault path (Document.decode path.toText content)) := by
  cases hdecode : Document.decode path.toText content with
  | error e =>
      cases e with
      | unusable failure => exact .unusable hdecode
      | _ => exact .unloadable hdecode (by simp)
  | ok document =>
      have hloadable := Document.loadable_eraseKeys (Document.loadable_of_decode hdecode) keys
      have hdepth : ∀ {text}, (document.eraseKeys keys).1.text? = .ok text →
          Json.depth (.obj (document.eraseKeys keys).1) ≤ Json.Limits.writeDepth :=
        fun htext => (hloadable.text?_eq_ok_iff.mp htext).1
      have hwrites := (document.eraseKeys keys).1.writes_write fault
      unfold verdict
      dsimp only
      generalize (document.eraseKeys keys).1.write fault = result at hwrites
      obtain ⟨written, error⟩ := result
      cases hwrites with
      | refused htext =>
          refine .refused hdecode (Nat.lt_of_not_le fun hle => ?_)
          rw [hloadable.text?_eq_ok_iff.mpr ⟨hle, rfl⟩] at htext
          contradiction
      | denied htext => exact .denied hdecode (hdepth htext)
      | unencodable htext hopened hbytes =>
          exact .unencodable hdecode (hdepth htext) hopened
            (Document.encode?_render_eq_none_iff.mp hbytes)
      | cut htext hbytes => exact .cut hdecode (hdepth htext) hbytes
      | whole htext hbytes => exact .whole hdecode (hdepth htext) hbytes

/-- A document at which a run does not stop has an outcome, and one at which it stops has none. -/
theorem Judged.outcome? {keys : List Text} {path : Path} {content : Bytes}
    {fault : Option WriteFault} {v : Verdict} (h : Judged keys path content fault v) :
    (v.stopped = none → ∃ outcome, v.outcome? = some outcome ∧ outcome.path = path) ∧
      (v.stopped ≠ none → v.outcome? = none) := by
  cases h <;> simp

/-- A content ends a run if it cannot be decoded for a reason other than what it says, or the
document that it holds cannot be put into the file again. -/
theorem endsPruning_iff {keys : List Text} {fault : Option WriteFault} {content : Bytes}
    (path : Text) :
    EndsPruning keys fault content ↔
      (∃ e, Document.decode path content = .error e ∧ ∀ failure, e ≠ .unusable failure) ∨
        ∃ document, Document.decode path content = .ok document ∧
          (Json.Limits.writeDepth < Json.depth (.obj (document.eraseKeys keys).1) ∨
            (document.eraseKeys keys).1.hasSurrogate = true ∧
              ∀ reason, fault ≠ some (.refused reason)) := by
  constructor
  · rintro (hnone | ⟨htext, hread⟩ | ⟨htext, hread⟩ | ⟨htext, hread, hdepth⟩ |
      ⟨htext, hread, hsurrogate, hopened⟩)
    · exact Or.inl (Document.decode_eq_error_iff.mpr (Or.inl hnone))
    · exact Or.inl (Document.decode_eq_error_iff.mpr (Or.inr ⟨_, htext, Or.inl ⟨_, hread⟩⟩))
    · exact Or.inl (Document.decode_eq_error_iff.mpr (Or.inr ⟨_, htext, Or.inr hread⟩))
    · exact Or.inr ⟨_, Document.decode_eq_ok_iff.mpr ⟨_, htext, hread⟩, Or.inl hdepth⟩
    · exact Or.inr ⟨_, Document.decode_eq_ok_iff.mpr ⟨_, htext, hread⟩,
        Or.inr ⟨hsurrogate, hopened⟩⟩
  · rintro (herror | ⟨document, hdecode, hlimit⟩)
    · rcases Document.decode_eq_error_iff.mp herror with
        hnone | ⟨text, htext, ⟨count, hread⟩ | hread⟩
      · exact .undecodable hnone
      · exact .tooManyDigits htext hread
      · exact .tooDeep htext hread
    · obtain ⟨text, htext, hread⟩ := Document.decode_eq_ok_iff.mp hdecode
      rcases hlimit with hdepth | ⟨hsurrogate, hopened⟩
      · exact .tooDeepToWrite htext hread hdepth
      · exact .unwritable htext hread hsurrogate hopened

/-- A run stops at a document exactly if its content ends it. -/
theorem Judged.stopped_iff {keys : List Text} {path : Path} {content : Bytes}
    {fault : Option WriteFault} {v : Verdict} (h : Judged keys path content fault v) :
    v.stopped ≠ none ↔ EndsPruning keys fault content := by
  rw [endsPruning_iff path.toText]
  constructor
  · intro hstopped
    cases h with
    | unloadable hdecode he => exact Or.inl ⟨_, hdecode, he⟩
    | refused hdecode hdepth => exact Or.inr ⟨_, hdecode, Or.inl hdepth⟩
    | unencodable hdecode hdepth hopened hsurrogate =>
        exact Or.inr ⟨_, hdecode, Or.inr ⟨hsurrogate, hopened⟩⟩
    | unusable | denied | cut | whole => exact absurd rfl hstopped
  · -- in every case that goes on, the content is none of those that end a run
    rintro (⟨e, herror, he⟩ | ⟨document, hok, hlimit⟩) hstopped
    · cases h with
      | unusable hdecode => exact he _ (Except.error.inj (herror.symm.trans hdecode))
      | unloadable | refused | unencodable => contradiction
      | denied hdecode | cut hdecode | whole hdecode =>
          rw [hdecode] at herror
          contradiction
    · cases h with
      | unusable hdecode =>
          rw [hdecode] at hok
          contradiction
      | unloadable | refused | unencodable => contradiction
      | denied hdecode hdepth =>
          obtain rfl := Except.ok.inj (hok.symm.trans hdecode)
          rcases hlimit with hdeep | ⟨-, hopened⟩
          · omega
          · exact hopened _ rfl
      | cut hdecode hdepth hbytes | whole hdecode hdepth hbytes =>
          obtain rfl := Except.ok.inj (hok.symm.trans hdecode)
          rcases hlimit with hdeep | ⟨hsurrogate, -⟩
          · omega
          · rw [Document.exists_encode?_render_iff.mp ⟨_, hbytes⟩] at hsurrogate
            contradiction

section

variable (keys : List Text) (directory : Path) (place : AbsolutePath) (fs : FileSystem)
  (name : Text)

/-- The verdict on the document with a name. -/
def verdictAt : Verdict :=
  verdict keys (fs.fault? (place ++ [name])) (directory.child name)
    (Document.decode (directory.child name).toText (contentAt fs (place ++ [name])))

/-- Whether a run goes on after the document with a name. -/
def passes (taken : PruneOutcome → Bool) : Bool :=
  (verdictAt keys directory place fs name).stopped.isNone
    && (verdictAt keys directory place fs name).outcome?.all taken

end

section

variable {keys : List Text} {directory : Path} {place : AbsolutePath} {fs : FileSystem}
  {name : Text} {f : File}

theorem judged_verdictAt (hf : fs.entry? (place ++ [name]) = some (.file f)) :
    Judged keys (directory.child name) f.content (fs.fault? (place ++ [name]))
      (verdictAt keys directory place fs name) := by
  unfold verdictAt
  rw [contentAt_of_file hf]
  exact judged_verdict ..

/-- A run goes on after a document exactly if its content does not end it and its outcome is
taken. -/
theorem passes_iff {taken : PruneOutcome → Bool}
    (hf : fs.entry? (place ++ [name]) = some (.file f)) :
    passes keys directory place fs name taken = true ↔
      ¬EndsPruning keys (fs.fault? (place ++ [name])) f.content ∧
        ∀ outcome, (verdictAt keys directory place fs name).outcome? = some outcome →
          taken outcome = true := by
  have hjudged : Judged keys (directory.child name) f.content (fs.fault? (place ++ [name]))
      (verdictAt keys directory place fs name) := judged_verdictAt hf
  unfold passes
  rw [Bool.and_eq_true, Option.isNone_iff_eq_none, Option.all_eq_true, ← hjudged.stopped_iff, Ne,
    not_not]

/-- Where every outcome is taken, a run goes on after a document exactly if it does not stop at
it. -/
theorem passes_of_all (keys : List Text) (directory : Path) (place : AbsolutePath)
    (fs : FileSystem) (name : Text) :
    passes keys directory place fs name (fun _ => true)
      = (verdictAt keys directory place fs name).stopped.isNone := by
  unfold passes
  cases (verdictAt keys directory place fs name).outcome? <;> simp

end

end

/-! ## Runs -/

/-- Of names in a row, those up to the first at which it does not go on. -/
def reached (goesOn : Text → Bool) : List Text → List Text
  | [] => []
  | name :: rest => name :: if goesOn name then reached goesOn rest else []

theorem reached_sublist (goesOn : Text → Bool) (names : List Text) :
    (reached goesOn names).Sublist names := by
  induction names with
  | nil => exact List.Sublist.refl _
  | cons name rest ih =>
      rw [reached]
      split_ifs
      · exact ih.cons_cons name
      · exact (List.nil_sublist rest).cons_cons name

/-- What is listed for the names reached is what is listed for those before the last, if there is
nothing for a name at which it does not go on. -/
theorem flatMap_reached {β : Type} {goesOn : Text → Bool} {f : Text → List β} {names : List Text}
    (h : ∀ name ∈ names, goesOn name = false → f name = []) :
    (reached goesOn names).flatMap f = (names.takeWhile goesOn).flatMap f := by
  induction names with
  | nil => rfl
  | cons name rest ih =>
      obtain ⟨hname, hrest⟩ := List.forall_mem_cons.mp h
      cases hgoesOn : goesOn name with
      | true => simp [reached, hgoesOn, ih hrest]
      | false => simp [reached, hgoesOn, hname hgoesOn]

/-- A search ends among the names reached, if it ends where it does not go on. -/
theorem findSome?_reached {β : Type} {goesOn : Text → Bool} {f : Text → Option β}
    {names : List Text} (h : ∀ name ∈ names, goesOn name = false → f name ≠ none) :
    (reached goesOn names).findSome? f = names.findSome? f := by
  induction names with
  | nil => rfl
  | cons name rest ih =>
      obtain ⟨hname, hrest⟩ := List.forall_mem_cons.mp h
      rw [reached, List.findSome?_cons, List.findSome?_cons]
      cases hf : f name with
      | some value => rfl
      | none =>
          have hgoesOn : goesOn name = true := by
            by_contra hnot
            exact hname (Bool.not_eq_true _ ▸ hnot) hf
          rw [if_pos hgoesOn]
          exact ih hrest

theorem reached_eq_self {goesOn : Text → Bool} {names : List Text}
    (h : ∀ name ∈ reached goesOn names, goesOn name = true) : reached goesOn names = names := by
  induction names with
  | nil => rfl
  | cons name rest ih =>
      rw [reached] at h ⊢
      have hname := h name List.mem_cons_self
      rw [if_pos hname] at h ⊢
      rw [ih fun other hother => h other (List.mem_cons_of_mem name hother)]

/-- Of distinct names, one is reached exactly if it goes on at all before it. -/
theorem mem_reached_iff {goesOn : Text → Bool} {earlier later : List Text} {name : Text}
    (h : (earlier ++ name :: later).Nodup) :
    name ∈ reached goesOn (earlier ++ name :: later) ↔ ∀ other ∈ earlier, goesOn other = true := by
  induction earlier with
  | nil => simp [reached]
  | cons first rest ih =>
      obtain ⟨hfirst, hrest⟩ := List.nodup_cons.mp h
      have hne : name ≠ first := by
        rintro rfl
        exact hfirst (by simp)
      rw [List.cons_append, reached, List.mem_cons, or_iff_right hne, List.forall_mem_cons,
        ← ih hrest]
      split_ifs with hgoesOn <;> simp [hgoesOn]

/-- The verdict on one document of `fs` is carried out, and nothing else changes. -/
structure Applies [Json.Limits] (keys : List Text) (directory : Path) (place : AbsolutePath)
    (fs : FileSystem) (name : Text) (f : File) (before after : Pruning) : Prop where
  outcomes : after.outcomes =
    before.outcomes ++ (verdictAt keys directory place fs name).outcome?.toList
  stopped : after.stopped = (verdictAt keys directory place fs name).stopped
  files : ∀ other, after.files.entry? other = if other = place ++ [name] then
      some (.file ((verdictAt keys directory place fs name).file f))
    else before.files.entry? other

/-- What a run over the documents `todo` makes of a run before it, if they are as in `fs`. -/
structure Prunes [Json.Limits] (taken : PruneOutcome → Bool) (keys : List Text)
    (directory : Path) (place : AbsolutePath) (fs : FileSystem) (todo : List Text)
    (before after : Pruning) : Prop where
  outcomes : after.outcomes = before.outcomes ++
    (reached (passes keys directory place fs · taken) todo).flatMap
      fun name => (verdictAt keys directory place fs name).outcome?.toList
  stopped : after.stopped = (reached (passes keys directory place fs · taken) todo).findSome?
    fun name => (verdictAt keys directory place fs name).stopped
  frame : ∀ other, (∀ name ∈ reached (passes keys directory place fs · taken) todo,
    other ≠ place ++ [name]) → after.files.entry? other = before.files.entry? other
  file : ∀ name ∈ reached (passes keys directory place fs · taken) todo, ∀ f,
    fs.entry? (place ++ [name]) = some (.file f) → after.files.entry? (place ++ [name])
      = some (.file ((verdictAt keys directory place fs name).file f))

theorem place_ne_of_nodup {place : AbsolutePath} {name : Text} {rest : List Text}
    (h : (name :: rest).Nodup) :
    ∀ other ∈ rest, place ++ [other] ≠ place ++ [name] := by
  intro other hother heq
  obtain rfl : other = name := by simpa using heq
  exact (List.nodup_cons.mp h).1 hother

section

variable [Json.Limits] {taken : PruneOutcome → Bool} {keys : List Text} {directory : Path}
  {place : AbsolutePath} {fs : FileSystem} {name : Text} {rest : List Text} {f : File}
  {before between after : Pruning}

/-- A document that a run does not come to stays as it was. -/
theorem Prunes.kept {todo : List Text}
    (h : Prunes taken keys directory place fs todo before after)
    (hname : name ∉ reached (passes keys directory place fs · taken) todo) :
    after.files.entry? (place ++ [name]) = before.files.entry? (place ++ [name]) := by
  refine h.frame _ fun other hother heq => hname ?_
  obtain rfl : name = other := by simpa using heq
  exact hother

/-- A run that does not stop and whose outcomes are all taken comes to all its documents. -/
theorem Prunes.reached_eq {todo : List Text}
    (h : Prunes taken keys directory place fs todo before after) (hstopped : after.stopped = none)
    (htaken : after.outcomes.all taken = true) :
    reached (passes keys directory place fs · taken) todo = todo := by
  refine reached_eq_self fun name hname => ?_
  rw [h.stopped, List.findSome?_eq_none_iff] at hstopped
  rw [h.outcomes, List.all_append, Bool.and_eq_true, List.all_flatMap] at htaken
  rw [passes, hstopped name hname, Option.isNone_none, Bool.true_and]
  have hall := List.all_eq_true.mp htaken.2 name hname
  cases houtcome : (verdictAt keys directory place fs name).outcome? with
  | none => rfl
  | some outcome => simpa [houtcome] using hall

/-- What a run makes of its documents, from the first document on. -/
theorem Prunes.cons (hnodup : (name :: rest).Nodup)
    (hf : fs.entry? (place ++ [name]) = some (.file f))
    (hstep : Applies keys directory place fs name f before between)
    (hpass : passes keys directory place fs name taken = true)
    (hrest : Prunes taken keys directory place fs rest between after) :
    Prunes taken keys directory place fs (name :: rest) before after := by
  have hnone : (verdictAt keys directory place fs name).stopped = none := by
    rw [passes, Bool.and_eq_true, Option.isNone_iff_eq_none] at hpass
    exact hpass.1
  have hreached : reached (passes keys directory place fs · taken) (name :: rest)
      = name :: reached (passes keys directory place fs · taken) rest := by
    rw [reached, if_pos hpass]
  refine ⟨?_, ?_, ?_, ?_⟩ <;> rw [hreached]
  · rw [List.flatMap_cons, ← List.append_assoc, ← hstep.outcomes]
    exact hrest.outcomes
  · rw [List.findSome?_cons, hnone]
    exact hrest.stopped
  · intro other hother
    obtain ⟨hname, hothers⟩ := List.forall_mem_cons.mp hother
    rw [hrest.frame other hothers, hstep.files, if_neg hname]
  · refine List.forall_mem_cons.mpr ⟨fun g hg => ?_, hrest.file⟩
    obtain rfl : f = g := Entry.file.inj (Option.some.inj (hf.symm.trans hg))
    rw [hrest.frame _ fun n hn =>
        (place_ne_of_nodup hnodup n ((reached_sublist _ _).subset hn)).symm,
      hstep.files, if_pos rfl]

/-- A run that comes no further than its first document leaves the others alone. -/
theorem prunes_of_not_passes (hf : fs.entry? (place ++ [name]) = some (.file f))
    (hstep : Applies keys directory place fs name f before after)
    (hpass : passes keys directory place fs name taken = false) :
    Prunes taken keys directory place fs (name :: rest) before after := by
  have hreached : reached (passes keys directory place fs · taken) (name :: rest) = [name] := by
    rw [reached, if_neg (by simp [hpass])]
  refine ⟨?_, ?_, ?_, ?_⟩ <;> rw [hreached]
  · rw [hstep.outcomes, List.flatMap_singleton]
  · rw [hstep.stopped, List.findSome?_cons]
    cases (verdictAt keys directory place fs name).stopped <;> rfl
  · intro other hother
    rw [hstep.files, if_neg (hother name List.mem_cons_self)]
  · refine List.forall_mem_singleton.mpr fun g hg => ?_
    obtain rfl : f = g := Entry.file.inj (Option.some.inj (hf.symm.trans hg))
    rw [hstep.files, if_pos rfl]

end

section

variable [Json.Limits] [Locale.Catalogue]

/-- A step of a run gives the verdict on the document that its path leads to. -/
theorem document_eq {run : Pruning} {path : Path} {spot : AbsolutePath} {f : File}
    (keys : List Text) (hrun : run.stopped = none)
    (hlocate : run.files.locate path = .ok (spot, .file f)) :
    let v := verdict keys (run.files.fault? spot) path (Document.decode path.toText f.content)
    (document keys run path).outcomes = run.outcomes ++ v.outcome?.toList ∧
      (document keys run path).stopped = v.stopped ∧
      (document keys run path).files = run.files.put spot v.written? := by
  have hread := FileSystem.readMessages_of_readFile (FileSystem.readFile_of_locate hlocate)
  unfold document verdict
  rw [hrun, hread]
  cases Document.decode path.toText f.content with
  | error e => cases e <;> simp [FileSystem.put]
  | ok content =>
      dsimp only
      rw [FileSystem.writeMessages_of_locate hlocate]
      generalize (content.eraseKeys keys).1.write (run.files.fault? spot) = result
      obtain ⟨written, error⟩ := result
      rcases error with _ | refusal | fault | reason | _ <;> simp [Verdict.ofWrite]

theorem document_of_error {run : Pruning} {path : Path} {e : LoadError} (keys : List Text)
    (fault : Option WriteFault) (hrun : run.stopped = none)
    (hread : run.files.readMessages path = .error e) :
    (document keys run path).outcomes
        = run.outcomes ++ (verdict keys fault path (.error e)).outcome?.toList ∧
      (document keys run path).stopped = (verdict keys fault path (.error e)).stopped ∧
      (document keys run path).files = run.files := by
  unfold document verdict
  rw [hrun, hread]
  cases e <;> simp

theorem document_of_stopped {keys : List Text} {run : Pruning} (h : run.stopped ≠ none)
    (path : Path) : document keys run path = run := by
  obtain ⟨e, he⟩ := Option.ne_none_iff_exists'.mp h
  unfold document
  rw [he]

/-- A step writes no other file than the one that its path leads to. -/
theorem files_document (keys : List Text) (run : Pruning) (path : Path) :
    (document keys run path).files = run.files ∨
      ∃ spot f content, run.files.locate path = .ok (spot, .file f) ∧
        (document keys run path).files = run.files.overwrite spot content := by
  by_cases hrun : run.stopped = none
  · cases hread : run.files.readMessages path with
    | error e => exact Or.inl (document_of_error keys none hrun hread).2.2
    | ok content =>
        obtain ⟨spot, f, hlocate, -⟩ := FileSystem.readMessages_eq_ok_iff.mp hread
        obtain ⟨-, -, hfiles⟩ := document_eq keys hrun hlocate
        cases hwritten : (verdict keys (run.files.fault? spot) path
          (Document.decode path.toText f.content)).written? with
        | none =>
            rw [hwritten] at hfiles
            exact Or.inl hfiles
        | some content =>
            rw [hwritten] at hfiles
            exact Or.inr ⟨spot, f, content, hlocate, hfiles⟩
  · exact Or.inl (congrArg files (document_of_stopped hrun path))

section

variable {taken : PruneOutcome → Bool} {keys : List Text}

theorem outline_document (keys : List Text) (run : Pruning) (path : Path) :
    (document keys run path).files.outline = run.files.outline := by
  rcases files_document keys run path with hsame | ⟨spot, f, content, hlocate, hfiles⟩
  · rw [hsame]
  · rw [hfiles]
    exact FileSystem.outline_overwrite (FileSystem.entry?_of_locate hlocate) content

theorem outline_documentIf (run : Pruning) (path : Path) :
    (documentIf taken keys run path).files.outline = run.files.outline := by
  unfold documentIf
  split_ifs
  · exact outline_document keys run path
  · rfl

theorem outline_foldl_documentIf (paths : List Path) (run : Pruning) :
    (paths.foldl (documentIf taken keys) run).files.outline = run.files.outline := by
  induction paths generalizing run with
  | nil => rfl
  | cons path paths ih => rw [List.foldl_cons, ih, outline_documentIf]

/-- Every file that a run changes is one to which the path of a document leads. -/
theorem changed_of_foldl_documentIf {paths : List Path} {run : Pruning} {changed : AbsolutePath}
    (h : (paths.foldl (documentIf taken keys) run).files.entry? changed
      ≠ run.files.entry? changed) :
    ∃ path ∈ paths, ∃ f, run.files.locate path = .ok (changed, .file f) := by
  induction paths generalizing run with
  | nil => exact absurd rfl h
  | cons path paths ih =>
      rw [List.foldl_cons] at h
      by_cases hstep : (documentIf taken keys run path).files.entry? changed
          = run.files.entry? changed
      · -- the change comes later, and until then the outline is the same
        rw [← hstep] at h
        obtain ⟨other, hother, f, hlocate⟩ := ih h
        refine ⟨other, List.mem_cons_of_mem path hother, f, ?_⟩
        refine FileSystem.locate_file_of_outline (outline_documentIf run path).symm hlocate ?_
        rw [← hstep]
        exact FileSystem.entry?_of_locate hlocate
      · refine ⟨path, List.mem_cons_self, ?_⟩
        unfold documentIf at hstep
        split_ifs at hstep with htaken
        · rcases files_document keys run path with hsame | ⟨spot, f, content, hlocate, hfiles⟩
          · exact absurd (by rw [hsame]) hstep
          · rw [hfiles, FileSystem.entry?_overwrite (FileSystem.entry?_of_locate hlocate)] at hstep
            split_ifs at hstep with hspot
            · rw [hspot]
              exact ⟨f, hlocate⟩
            · exact absurd rfl hstep
        · exact absurd rfl hstep

/-- A run that has stopped or whose last outcome was not taken comes no further. -/
theorem foldl_documentIf_of_done {run : Pruning}
    (h : run.stopped ≠ none ∨ run.outcomes.all taken = false) (paths : List Path) :
    paths.foldl (documentIf taken keys) run = run := by
  induction paths with
  | nil => rfl
  | cons path paths ih =>
      have hstep : documentIf taken keys run path = run := by
        unfold documentIf
        split_ifs with htaken
        · exact document_of_stopped (h.resolve_right (by simp [htaken])) path
        · rfl
      rw [List.foldl_cons, hstep, ih]

end

section

variable {taken : PruneOutcome → Bool} {keys : List Text} {directory : Path} {place : AbsolutePath}
  {names : List Text} {fs : FileSystem}

/-- One step of a run carries out the verdict on one document. -/
theorem document_step (keys : List Text) (hsite : fs.Site directory place names) {run : Pruning}
    (houtline : run.files.outline = fs.outline) (hrun : run.stopped = none) {name : Text}
    (hname : name ∈ names) {f : File} (hf : fs.entry? (place ++ [name]) = some (.file f))
    (hbase : run.files.entry? (place ++ [name]) = fs.entry? (place ++ [name])) :
    Applies keys directory place fs name f run (document keys run (directory.child name)) := by
  have hfile := hbase.trans hf
  have hlocate := FileSystem.locate_file_of_outline houtline (hsite.locate hname hf) hfile
  obtain ⟨houtcomes, hstopped, hfiles⟩ := document_eq keys hrun hlocate
  have hverdict : verdict keys (run.files.fault? (place ++ [name])) (directory.child name)
      (Document.decode (directory.child name).toText f.content)
        = verdictAt keys directory place fs name := by
    rw [verdictAt, contentAt_of_file hf, FileSystem.fault?_congr houtline]
  rw [hverdict] at houtcomes hstopped hfiles
  refine ⟨houtcomes, hstopped, fun other => ?_⟩
  rw [hfiles]
  unfold Verdict.file
  cases (verdictAt keys directory place fs name).written? with
  | none =>
      split_ifs with hother
      · rw [hother]
        exact hfile
      · rfl
  | some content => exact FileSystem.entry?_overwrite hfile content other

/-- A whole run prunes the documents in order up to the first at which it does not go on. -/
theorem foldl_documentIf (hsite : fs.Site directory place names) {todo : List Text}
    (htodo : ∀ name ∈ todo, name ∈ names) (hnodup : todo.Nodup) {run : Pruning}
    (houtline : run.files.outline = fs.outline) (hrun : run.stopped = none)
    (htaken : run.outcomes.all taken = true) (hbase : ∀ name ∈ todo,
      run.files.entry? (place ++ [name]) = fs.entry? (place ++ [name])) :
    Prunes taken keys directory place fs todo run
      ((todo.map directory.child).foldl (documentIf taken keys) run) := by
  induction todo generalizing run with
  | nil =>
      exact ⟨by simp [reached], hrun, fun _ _ => rfl, fun name hname => by simp [reached] at hname⟩
  | cons name rest ih =>
      obtain ⟨hname, hrestNames⟩ := List.forall_mem_cons.mp htodo
      obtain ⟨hbaseName, hbaseRest⟩ := List.forall_mem_cons.mp hbase
      obtain ⟨-, -, f, hf⟩ := hsite.documents name hname
      have hstep := document_step keys hsite houtline hrun hname hf hbaseName
      rw [List.map_cons, List.foldl_cons, show documentIf taken keys run (directory.child name)
        = document keys run (directory.child name) from if_pos htaken]
      -- the outcomes are all taken after the step exactly if the new one is
      have hall : (document keys run (directory.child name)).outcomes.all taken
          = (verdictAt keys directory place fs name).outcome?.all taken := by
        rw [hstep.outcomes, List.all_append, htaken, Bool.true_and]
        cases (verdictAt keys directory place fs name).outcome? <;> simp
      cases hpass : passes keys directory place fs name taken with
      | true =>
          have hgoesOn := hpass
          rw [passes, Bool.and_eq_true, Option.isNone_iff_eq_none, ← hall,
            ← hstep.stopped] at hgoesOn
          have hunchanged : ∀ other ∈ rest, FileSystem.entry?
              (document keys run (directory.child name)).files (place ++ [other])
                = fs.entry? (place ++ [other]) := by
            intro other hother
            rw [hstep.files, if_neg (place_ne_of_nodup hnodup other hother)]
            exact hbaseRest other hother
          have hrest := ih hrestNames (List.nodup_cons.mp hnodup).2
            ((outline_document keys run _).trans houtline) hgoesOn.1 hgoesOn.2 hunchanged
          exact hrest.cons hnodup hf hstep hpass
      | false =>
          have hdone := hpass
          rw [passes, ← hall, ← hstep.stopped, Bool.and_eq_false_iff, Option.isNone_eq_false_iff,
            Option.isSome_iff_ne_none] at hdone
          rw [foldl_documentIf_of_done hdone]
          exact prunes_of_not_passes hf hstep hpass

end

end

end Pruning

namespace FileSystem

theorem nodup_documentNames {fs : FileSystem} (hfs : fs.WellFormed) (place : AbsolutePath) :
    (fs.documentNames place).Nodup := by
  refine (pairwise_documentNames hfs place).imp fun {a b} hlt heq => ?_
  rw [heq] at hlt
  exact List.lt_irrefl b hlt

section

variable [Json.Limits]

/-- A run comes to a document exactly if it goes on after each document with a lesser name. -/
theorem mem_reached_documentNames_iff {fs : FileSystem} (hfs : fs.WellFormed) (keys : List Text)
    (directory : Path) {place : AbsolutePath} {name : Text} (hname : name ∈ fs.documentNames place)
    (taken : PruneOutcome → Bool) :
    name ∈ Pruning.reached (Pruning.passes keys directory place fs · taken)
        (fs.documentNames place) ↔
      ∀ other < name, isDocumentName other = true → ∀ f,
        fs.entry? (place ++ [other]) = some (.file f) →
        ¬EndsPruning keys (fs.fault? (place ++ [other])) f.content ∧
          ∀ outcome, (Pruning.verdictAt keys directory place fs other).outcome? = some outcome →
            taken outcome = true := by
  obtain ⟨earlier, later, hnames⟩ := List.append_of_mem hname
  have hmem : ∀ other, other ∈ earlier ↔ (isDocumentName other = true ∧
      ∃ f, fs.entry? (place ++ [other]) = some (.file f)) ∧ other < name := by
    intro other
    have hsorted := pairwise_documentNames hfs place
    rw [hnames] at hsorted
    rw [← mem_documentNames hfs, hnames]
    exact mem_earlier_iff hsorted
  have hnodup := nodup_documentNames hfs place
  rw [hnames] at hnodup ⊢
  rw [Pruning.mem_reached_iff hnodup]
  constructor
  · intro hall other hlt hdocument f hf
    exact (Pruning.passes_iff hf).mp (hall other ((hmem other).mpr ⟨⟨hdocument, f, hf⟩, hlt⟩))
  · intro hall other hother
    obtain ⟨⟨hdocument, f, hf⟩, hlt⟩ := (hmem other).mp hother
    exact (Pruning.passes_iff hf).mpr (hall other hlt hdocument f hf)

end

/-- Where every outcome is taken, a run comes to a document exactly if no document with a lesser
name ends it. -/
theorem mem_reached_of_all_iff [Json.Limits] {fs : FileSystem} (hfs : fs.WellFormed)
    (keys : List Text) (directory : Path) {place : AbsolutePath} {name : Text}
    (hname : name ∈ fs.documentNames place) :
    name ∈ Pruning.reached (Pruning.passes keys directory place fs · fun _ => true)
        (fs.documentNames place) ↔
      ∀ other < name, isDocumentName other = true → ∀ f,
        fs.entry? (place ++ [other]) = some (.file f) →
        ¬EndsPruning keys (fs.fault? (place ++ [other])) f.content := by
  rw [mem_reached_documentNames_iff hfs keys directory hname]
  simp only [implies_true, and_true]

section

variable [Json.Limits] [Locale.Catalogue]

/-- Pruning a directory prunes its documents in order, up to the first at which it does not go
on. -/
theorem prunes_pruneWhile {fs : FileSystem} (hfs : fs.WellFormed) {directory : Path}
    {place : AbsolutePath} {given : Option Int}
    (hlocate : fs.locate directory = .ok (place, .directory given)) {paths : List Path}
    (hpaths : fs.documents? directory = .ok (some paths)) (taken : PruneOutcome → Bool)
    (keys : KeySet) :
    Pruning.Prunes taken keys.toList directory place fs (fs.documentNames place) { files := fs }
      (fs.pruneWhile taken directory keys) := by
  obtain ⟨hsite, rfl⟩ := site_of_documents? hfs hlocate hpaths
  unfold pruneWhile
  rw [hpaths]
  exact Pruning.foldl_documentIf hsite (fun _ => id) (nodup_documentNames hfs place) rfl rfl rfl
    fun _ _ => rfl

/-- Pruning keeps the outline of a file system. -/
theorem outline_pruneWhile (taken : PruneOutcome → Bool) (fs : FileSystem) (directory : Path)
    (keys : KeySet) : (fs.pruneWhile taken directory keys).files.outline = fs.outline := by
  unfold pruneWhile
  split
  · rfl
  · rfl
  · exact Pruning.outline_foldl_documentIf ..

/-- If the documents cannot be listed, nothing is written. -/
theorem files_pruneWhile_of_not_listed {fs : FileSystem} {directory : Path}
    (h : ¬∃ paths, fs.documents? directory = .ok (some paths)) (taken : PruneOutcome → Bool)
    (keys : KeySet) : (fs.pruneWhile taken directory keys).files = fs := by
  unfold pruneWhile
  split
  · rfl
  · rfl
  · rename_i paths hpaths
    exact absurd ⟨paths, hpaths⟩ h

/-- Pruning changes nothing but files, each of them one that a document's name in its directory
stands for. -/
theorem changed_of_pruneWhile {taken : PruneOutcome → Bool} {fs : FileSystem} {directory : Path}
    {keys : KeySet} {changed : AbsolutePath}
    (h : (fs.pruneWhile taken directory keys).files.entry? changed ≠ fs.entry? changed) :
    ∃ place given name f g, fs.locate directory = .ok (place, .directory given) ∧
      isDocumentName name = true ∧ changed = fs.landing (place ++ [PathName.stored name]) ∧
      fs.entry? changed = some (.file f) ∧
      (fs.pruneWhile taken directory keys).files.entry? changed = some (.file g) := by
  by_cases hlisted : ∃ paths, fs.documents? directory = .ok (some paths)
  · obtain ⟨paths, hpaths⟩ := hlisted
    have hchanged := h
    unfold pruneWhile at hchanged
    rw [hpaths] at hchanged
    obtain ⟨path, hpath, f, hlocate⟩ := Pruning.changed_of_foldl_documentIf hchanged
    obtain ⟨spot, found, -, -, rfl⟩ := documents?_eq_some_iff.mp hpaths
    obtain ⟨name, hname, rfl⟩ := List.mem_map.mp hpath
    have hdocument := isDocumentName_of_mem_documentNames hname
    obtain ⟨hpart, hup⟩ := isPart_of_isDocumentName hdocument
    obtain ⟨place, given, hspot, hdirectory⟩ := locate_of_child hpart hup hlocate
    have hf := entry?_of_locate hlocate
    obtain ⟨g, hg⟩ := entry?_file_of_outline (outline_pruneWhile taken fs directory keys) hf
    exact ⟨place, given, name, f, g, hdirectory, hdocument, hspot, hf, hg⟩
  · rw [files_pruneWhile_of_not_listed hlisted] at h
    exact absurd rfl h

end

end FileSystem

end MessageKeys
