import MessageKeys.Proofs.Messages.Isolation

/-!
# What becomes of a document

A document survives a run of pruning if it keeps its content or holds what it held without the keys
(`Survives`).  Writing empties a file before the text is encoded, and may then get only a part of
the text to the file.  So a document is lost exactly if the run comes to it, its text can be made
and its file opened, and either it keeps a lone surrogate or more than the last newline of its text
does not get there (`survives_iff`).  No document can be read from what is then left
(`Lost.decode_ne_ok`).  Whatever else ends a run or fails costs no document.
-/

namespace MessageKeys

/-! ## Documents that are lost -/

/-- A document is lost when it is written without some keys, and this is left in its file. -/
inductive Document.Lost (keys : List Text) (fault : Option WriteFault) (document : Document) :
    Bytes → Prop
  /-- The file is emptied before it shows that the text has no bytes. -/
  | unencodable (hsurrogate : (document.eraseKeys keys).1.hasSurrogate = true)
      (hopened : ∀ reason, fault ≠ some (.refused reason)) : Lost keys fault document []
  /-- More than the last newline does not get to the file. -/
  | cut {kept : ℕ} {reason : Text} {bytes : Bytes} (hfault : fault = some (.cut kept reason))
      (hbytes : Utf8.encode? (document.eraseKeys keys).1.render = some bytes)
      (hshort : kept + 1 < bytes.length) : Lost keys fault document (bytes.take kept)

theorem Document.Lost.decode_ne_ok [Json.Limits] {keys : List Text} {fault : Option WriteFault}
    {document : Document} {left : Bytes} (h : document.Lost keys fault left)
    (hloadable : document.Loadable) (path : Text) (other : Document) :
    Document.decode path left ≠ .ok other := by
  cases h with
  | unencodable => exact Document.decode_nil path other
  | cut hfault hbytes hshort =>
      exact Document.decode_take_ne_ok (Document.loadable_eraseKeys hloadable keys) hbytes hshort
        path other

namespace Pruning

/-- A verdict leaves the content of a document alone, leaves one that loads as the document without
the keys, or loses the document. -/
theorem Judged.kept_or_lost [Json.Limits] {keys : List Text} {path : Path} {f : File}
    {fault : Option WriteFault} {v : Verdict} (h : Judged keys path f.content fault v) :
    (((v.file f).content = f.content ∨
        ∃ document, Document.decode path.toText f.content = .ok document ∧
          Document.decode path.toText (v.file f).content = .ok (document.eraseKeys keys).1) ∧
      ¬∃ document, Document.decode path.toText f.content = .ok document ∧
        Json.depth (.obj (document.eraseKeys keys).1) ≤ Json.Limits.writeDepth ∧
          ∃ left, document.Lost keys fault left) ∨
    ∃ document, Document.decode path.toText f.content = .ok document ∧
      Json.depth (.obj (document.eraseKeys keys).1) ≤ Json.Limits.writeDepth ∧
        document.Lost keys fault (v.file f).content := by
  cases h with
  | unusable hdecode | unloadable hdecode =>
      refine Or.inl ⟨Or.inl rfl, ?_⟩
      rintro ⟨document, hok, -⟩
      rw [hdecode] at hok
      contradiction
  | refused hdecode hdeep =>
      refine Or.inl ⟨Or.inl rfl, ?_⟩
      rintro ⟨document, hok, hdepth, -⟩
      obtain rfl := Except.ok.inj (hdecode.symm.trans hok)
      omega
  | denied hdecode hdepth =>
      refine Or.inl ⟨Or.inl rfl, ?_⟩
      rintro ⟨document, hok, -, left, hlost⟩
      cases hlost with
      | unencodable hsurrogate hopened => exact hopened _ rfl
      | cut hfault hbytes hshort => cases Option.some.inj hfault
  | unencodable hdecode hdepth hopened hsurrogate =>
      exact Or.inr ⟨_, hdecode, hdepth, .unencodable hsurrogate hopened⟩
  | @cut document bytes kept reason hdecode hdepth hbytes =>
      have hloadable := Document.loadable_eraseKeys (Document.loadable_of_decode hdecode) keys
      by_cases hshort : kept + 1 < bytes.length
      · exact Or.inr ⟨_, hdecode, hdepth, .cut rfl hbytes hshort⟩
      · refine Or.inl ⟨Or.inr ⟨_, hdecode, ?_⟩, ?_⟩
        · exact (Document.decode_take_eq_ok_iff hloadable hbytes).mpr ⟨by omega, rfl⟩
        · rintro ⟨other, hok, -, left, hlost⟩
          obtain rfl := Except.ok.inj (hdecode.symm.trans hok)
          cases hlost with
          | unencodable hsurrogate =>
              rw [Document.encode?_render_eq_none_iff.mpr hsurrogate] at hbytes
              contradiction
          | cut hfault hbytes' hshort' =>
              obtain ⟨rfl, rfl⟩ := WriteFault.cut.inj (Option.some.inj hfault)
              obtain rfl := Option.some.inj (hbytes.symm.trans hbytes')
              exact hshort hshort'
  | whole hdecode hdepth hbytes =>
      have hloadable := Document.loadable_eraseKeys (Document.loadable_of_decode hdecode) keys
      refine Or.inl ⟨Or.inr ⟨_, hdecode, Document.decode_encode hloadable hbytes path.toText⟩, ?_⟩
      rintro ⟨other, hok, -, left, hlost⟩
      obtain rfl := Except.ok.inj (hdecode.symm.trans hok)
      cases hlost with
      | unencodable hsurrogate =>
          rw [Document.encode?_render_eq_none_iff.mpr hsurrogate] at hbytes
          contradiction
      | cut hfault => contradiction

end Pruning

namespace FileSystem

section

variable [Json.Limits]

/-- A document has the content that it had, or holds what it held without the keys. -/
def Survives (keys : List Text) (before after : FileSystem) (path : Path) : Prop :=
  (after.readFile path).map File.content = (before.readFile path).map File.content ∨
    ∃ document, before.readMessages path = .ok document ∧
      after.readMessages path = .ok (document.eraseKeys keys).1

theorem survives_self (keys : List Text) (fs : FileSystem) (path : Path) :
    Survives keys fs fs path :=
  Or.inl rfl

theorem survives_of_content_eq (keys : List Text) {before after : FileSystem} {path : Path}
    {old new : File} (hold : before.readFile path = .ok old) (hnew : after.readFile path = .ok new)
    (h : new.content = old.content) : Survives keys before after path := by
  refine Or.inl ?_
  rw [hold, hnew]
  exact congrArg Except.ok h

/-- A document is lost where no document can be read from its file any more. -/
theorem not_survives_of_decode_ne_ok (keys : List Text) {before after : FileSystem} {path : Path}
    {old new : File} (hold : before.readFile path = .ok old) (hnew : after.readFile path = .ok new)
    {document : Document} (hdecode : Document.decode path.toText old.content = .ok document)
    (hlost : ∀ other, Document.decode path.toText new.content ≠ .ok other) :
    ¬Survives keys before after path := by
  rintro (hcontent | ⟨pruned, -, hread⟩)
  · rw [hold, hnew] at hcontent
    rw [← show new.content = old.content from Except.ok.inj hcontent] at hdecode
    exact hlost document hdecode
  · rw [readMessages_of_readFile hnew] at hread
    exact hlost _ hread

/-- A document survives the verdict on it or is lost by it. -/
theorem survives_verdict {keys : List Text} {before after : FileSystem} {path : Path} {f : File}
    {fault : Option WriteFault} {v : Pruning.Verdict}
    (hjudged : Pruning.Judged keys path f.content fault v) (hold : before.readFile path = .ok f)
    (hnew : after.readFile path = .ok (v.file f)) :
    (Survives keys before after path ∧ ¬∃ document, before.readMessages path = .ok document ∧
      Json.depth (.obj (document.eraseKeys keys).1) ≤ Json.Limits.writeDepth ∧
        ∃ left, document.Lost keys fault left) ∨
    (¬Survives keys before after path ∧ ∃ document, before.readMessages path = .ok document ∧
      Json.depth (.obj (document.eraseKeys keys).1) ≤ Json.Limits.writeDepth ∧
        document.Lost keys fault (v.file f).content) := by
  rw [readMessages_of_readFile hold]
  rcases hjudged.kept_or_lost with
    ⟨hsame | ⟨document, hdecode, hpruned⟩, hnot⟩ | ⟨document, hdecode, hdepth, hlost⟩
  · exact Or.inl ⟨survives_of_content_eq keys hold hnew hsame, hnot⟩
  · refine Or.inl ⟨Or.inr ⟨document, ?_, ?_⟩, hnot⟩
    · rw [readMessages_of_readFile hold, hdecode]
    · rw [readMessages_of_readFile hnew, hpruned]
  · refine Or.inr ⟨?_, document, hdecode, hdepth, hlost⟩
    exact not_survives_of_decode_ne_ok keys hold hnew hdecode
      (hlost.decode_ne_ok (Document.loadable_of_decode hdecode) path.toText)

end

/-- A document is lost exactly if the documents can be listed, none with a lesser name ends the run,
its text without the keys can be made, and writing it leaves something else in the file: nothing, if
the text has no bytes, or a part of the bytes that lacks more than the last newline.  What is left
is then no document. -/
theorem survives_iff [Json.Limits] [Locale.Catalogue] {fs : FileSystem} (hfs : fs.WellFormed)
    {text : Text} {place : AbsolutePath} {given : Option Int}
    (hplace : fs.locate (Path.ofText text) = .ok (place, .directory given))
    {name : Text} (hdocument : isDocumentName name = true) {f : File}
    (hf : fs.entry? (place ++ [name]) = some (.file f)) (keys : KeySet) :
    let path := (Path.ofText text).child name
    let after := (fs.prune (Path.ofText text) keys).files
    (Survives keys.toList fs after path ↔
      ¬((∃ paths, fs.documents? (Path.ofText text) = .ok (some paths)) ∧
        (∀ other < name, isDocumentName other = true → ∀ g,
          fs.entry? (place ++ [other]) = some (.file g) →
          ¬EndsPruning keys.toList (fs.fault? (place ++ [other])) g.content) ∧
        ∃ document, fs.readMessages path = .ok document ∧
          Json.depth (.obj (document.eraseKeys keys.toList).1) ≤ Json.Limits.writeDepth ∧
          ∃ left, document.Lost keys.toList (fs.fault? (place ++ [name])) left)) ∧
    (¬Survives keys.toList fs after path → ∃ document new, fs.readMessages path = .ok document ∧
      after.readFile path = .ok new ∧
      document.Lost keys.toList (fs.fault? (place ++ [name])) new.content ∧
      ∀ other, after.readMessages path ≠ .ok other) := by
  intro path after
  by_cases hlisted : ∃ paths, fs.documents? (Path.ofText text) = .ok (some paths)
  · obtain ⟨paths, hpaths⟩ := hlisted
    obtain ⟨hsite, -⟩ := site_of_documents? hfs hplace hpaths
    have hprunes : Pruning.Prunes _ keys.toList (Path.ofText text) place fs
        (fs.documentNames place) { files := fs } (fs.prune (Path.ofText text) keys) :=
      prunes_pruneWhile hfs hplace hpaths _ keys
    have houtline := outline_pruneWhile (fun _ => true) fs (Path.ofText text) keys
    have hname : name ∈ fs.documentNames place := (mem_documentNames hfs).mpr ⟨hdocument, f, hf⟩
    have hlocate : fs.locate path = .ok (place ++ [name], .file f) := hsite.locate hname hf
    have hold := readFile_of_locate hlocate
    rw [← mem_reached_of_all_iff hfs keys.toList (Path.ofText text) hname]
    by_cases hreached : name ∈ Pruning.reached
        (Pruning.passes keys.toList (Path.ofText text) place fs · fun _ => true)
        (fs.documentNames place)
    · have hnew : after.readFile path = .ok
          ((Pruning.verdictAt keys.toList (Path.ofText text) place fs name).file f) :=
        readFile_of_locate (locate_file_of_outline houtline hlocate
          (hprunes.file name hreached f hf))
      have hjudged : Pruning.Judged keys.toList path f.content (fs.fault? (place ++ [name]))
          (Pruning.verdictAt keys.toList (Path.ofText text) place fs name) :=
        Pruning.judged_verdictAt hf
      rcases survives_verdict hjudged hold hnew with
        ⟨hsurvives, hnot⟩ | ⟨hlost, document, hread, hdepth, hleft⟩
      · exact ⟨iff_of_true hsurvives fun h => hnot h.2.2, absurd hsurvives⟩
      · refine ⟨iff_of_false hlost (not_not.mpr ?_), fun _ => ⟨document, _, hread, hnew, hleft, ?_⟩⟩
        · exact ⟨⟨paths, hpaths⟩, hreached, document, hread, hdepth, _, hleft⟩
        · rw [readMessages_of_readFile hnew]
          rw [readMessages_of_readFile hold] at hread
          exact hleft.decode_ne_ok (Document.loadable_of_decode hread) path.toText
    · have hsame : after.readFile path = .ok f := readFile_of_locate
        (locate_file_of_outline houtline hlocate ((hprunes.kept hreached).trans hf))
      have hsurvives := survives_of_content_eq keys.toList hold hsame rfl
      exact ⟨iff_of_true hsurvives fun h => hreached h.2.1, absurd hsurvives⟩
  · have hsurvives : Survives keys.toList fs after path := by
      unfold after prune
      rw [files_pruneWhile_of_not_listed hlisted]
      exact survives_self keys.toList fs path
    exact ⟨iff_of_true hsurvives fun h => hlisted h.1, absurd hsurvives⟩

/-- The content of a document in which a lone surrogate is written as an escape. -/
def escaped : Bytes :=
  [0x7b, 0x22, 0x61, 0x22, 0x3a, 0x22, 0x5c, 0x75, 0x64, 0x38, 0x30, 0x30, 0x22, 0x7d]

section

open scoped Usual

/-- A lone surrogate costs nothing if the run ends before it comes to it. -/
theorem survives_after_undecodable :
    Survives (KeySet.ofList ["k"]).toList (twoDocuments [0xff] escaped)
      ((twoDocuments [0xff] escaped).prune (Path.ofText "m") (KeySet.ofList ["k"])).files
      ((Path.ofText "m").child "en.json") := by
  have hless : Text.ofString "de.json" < Text.ofString "en.json" := by decide
  have hundecodable : Utf8.decode? [0xff] = none := by cbv
  have hfirst : FileSystem.entry? (twoDocuments [0xff] escaped) (["m"] ++ ["de.json"])
      = some (.file ⟨[0xff], 0, default⟩) := rfl
  have hsecond : FileSystem.entry? (twoDocuments [0xff] escaped) (["m"] ++ ["en.json"])
      = some (.file ⟨escaped, 0, default⟩) := rfl
  refine (survives_iff (wellFormed_twoDocuments _ _) (locate_twoDocuments _ _).1 (by decide)
    hsecond _).1.mpr ?_
  rintro ⟨-, hreached, -⟩
  exact hreached _ hless (by decide) _ hfirst (.undecodable hundecodable)

/-- A document with a lone surrogate is lost even though no key is taken out of it. -/
theorem not_survives_escaped :
    ¬Survives (KeySet.ofList ["k"]).toList (twoDocuments escaped keyed)
      ((twoDocuments escaped keyed).prune (Path.ofText "m") (KeySet.ofList ["k"])).files
      ((Path.ofText "m").child "de.json") := by
  have hdecode : Document.decode ((Path.ofText "m").child "de.json").toText escaped
      = .ok [("a", .str [CodePoint.ofNat 0xd800])] := by cbv
  have hnew : ((twoDocuments escaped keyed).prune (Path.ofText "m")
      (KeySet.ofList ["k"])).files.readFile ((Path.ofText "m").child "de.json")
        = .ok ⟨[], 1, default⟩ := by
    unfold prune pruneWhile
    rw [documents?_twoDocuments]
    cbv
  exact not_survives_of_decode_ne_ok _ (readFile_of_locate (locate_twoDocuments _ _).2.1) hnew
    hdecode (Document.decode_nil _)

end

end FileSystem

end MessageKeys
