import MessageKeys.Messages.Locale
import MessageKeys.Messages.Store

/-!
# Pruning documents

Keys that nothing uses are erased from every document of the messages directory, one
document after the other in the order of their names.  A document that cannot be used or
whose file cannot be written is reported, and the run goes on; bytes that are not UTF-8 and
documents without a text or bytes end the run where it stands.

The outcomes are taken one by one, and a document is not looked at before the outcome of the
last is taken.
-/

namespace MessageKeys

/-- What became of one document. -/
structure PruneOutcome where
  path : Path
  removed : Nat := 0
  failure : Option LoadFailure := none

/-- Why pruning stopped. -/
inductive PruneError where
  | load (e : LoadError)
  | write (e : WriteError)
  | os (e : OsError)
  deriving DecidableEq, Repr

/-- A run of pruning so far. -/
structure Pruning where
  files : FileSystem
  outcomes : List PruneOutcome := []
  notices : List Notice := []
  stopped : Option PruneError := none

/-- Whether a name is one of a document. -/
def isDocumentName (name : Text) : Bool :=
  (Text.ofString ".json").isSuffixOf name

/-- The names of the files among the entries of a directory, in order. -/
def fileNames (entries : List (Text × Entry)) : List Text :=
  let names := entries.filterMap fun (name, entry) =>
    if entry.isDirectory then none else some name
  names.mergeSort fun a b => !decide (b < a)

/-- The names directly inside a directory, links that lead nowhere included. -/
def FileSystem.namesIn (fs : FileSystem) (directory : AbsolutePath) : List Text :=
  (Assoc.names fs.entries ++ Assoc.names fs.links).filterMap (FileSystem.nameIn? directory)

/-- The documents of a directory, in the order of their names; `none` if there is no such
directory.  Whether a name is a file is asked by the whole path, so there is no answer if
one of these paths is too long. -/
def FileSystem.documents? (fs : FileSystem) (directory : Path) :
    Except OsError (Option (List Path)) :=
  match fs.locate directory with
  | .ok (place, .directory _) =>
      let found := (fs.list place).filter fun (name, _) => isDocumentName name
      if (fs.namesIn place).any fun name =>
          isDocumentName name && FileSystem.isOverlong (directory.child name) then
        .error .nameTooLong
      else .ok (some ((fileNames found).map directory.child))
  | .error (.os .nameTooLong) => .error .nameTooLong
  | _ => .ok none

section

variable [Json.Limits] [Locale.Catalogue]

namespace Pruning

/-- Erase keys from one document. -/
def document (keys : List Text) (run : Pruning) (path : Path) : Pruning :=
  match run.stopped with
  | some _ => run
  | none =>
      let notices := run.notices ++ Locale.notices "locale document" path.stem
      match run.files.readMessages path with
      | .error (.unusable failure) =>
          { run with
            outcomes := run.outcomes ++ [⟨path, 0, some failure⟩]
            notices := notices ++
              [.skippedDocument path.toText failure.diagnostic.plainBlock] }
      | .error e => { run with notices, stopped := some (.load e) }
      | .ok content =>
          let (pruned, removed) := content.eraseKeys keys
          match run.files.writeMessages path pruned with
          | (files, none) =>
              { run with files, notices, outcomes := run.outcomes ++ [⟨path, removed, none⟩] }
          | (files, some (.failed reason)) =>
              { run with
                files
                outcomes := run.outcomes ++ [⟨path, 0, some ⟨path.toText, .invalid reason⟩⟩]
                notices := notices ++ [.unwrittenDocument path.toText reason] }
          | (files, some e) => { run with files, notices, stopped := some (.write e) }

/-- Erase keys from one document if all outcomes so far were taken. -/
def documentIf (taken : PruneOutcome → Bool) (keys : List Text) (run : Pruning) (path : Path) :
    Pruning :=
  if run.outcomes.all taken then run.document keys path else run

end Pruning

namespace FileSystem

/-- Erase keys from the documents of a directory for as long as the outcomes are taken. -/
def pruneWhile (taken : PruneOutcome → Bool) (fs : FileSystem) (directory : Path)
    (keys : KeySet) : Pruning :=
  match fs.documents? directory with
  | .error e => { files := fs, stopped := some (.os e) }
  | .ok none => { files := fs, notices := [.noDirectory directory.toText] }
  | .ok (some paths) => paths.foldl (Pruning.documentIf taken keys.toList) { files := fs }

/-- Erase keys from every document of a directory. -/
def prune (fs : FileSystem) (directory : Path) (keys : KeySet) : Pruning :=
  fs.pruneWhile (fun _ => true) directory keys

end FileSystem

end

end MessageKeys
