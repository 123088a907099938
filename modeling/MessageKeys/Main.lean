import MessageKeys.Command.Run
import MessageKeys.Files.Snapshot
import MessageKeys.Json.Reader

/-!
# The program

The first line of the standard input is a snapshot of the project: an object with the
absolute path of the working directory under `root` and the entries under `files`.  The
first argument `lint` chooses linting; otherwise the project is checked.  Files that the
command changed are written back.

The surroundings of a run are fixed here: the usual limits of JSON, a stream in UTF-8, and the
locales that are known.
-/

namespace MessageKeys.Program

open scoped Usual

/-- The locales that the program knows. -/
def locales : List Text :=
  ["EN", "de", "de_AT", "en", "en_GB", "en_US", "es", "fr", "ja", "pt_BR", "sr_Latn",
    "zh_Hans_CN", "zh_Hant"]

/-- The file system that a snapshot describes; none if there is no such file system. -/
def load (line : String) : Option FileSystem :=
  match Json.read (Text.ofString line) with
  | .error _ => none
  | .ok value =>
      let root := (Path.ofText (Snapshot.textOf (Snapshot.member value "root"))).resolve []
      (Snapshot.fileSystem root (Snapshot.listOf (Snapshot.member value "files"))).toOption

/-- Run a command on a file system. -/
def run (command : Command) (files : FileSystem) (words : List Text) : CommandRun :=
  letI : Locale.Catalogue := ⟨locales.contains⟩
  command.run files words

/-- The command and its words. -/
def choose : List String → Command × List Text
  | "lint" :: words => (.lint, words.map Text.ofString)
  | words => (.check, words.map Text.ofString)

/-- The files of the second file system that differ from those of the first. -/
def changes (before after : FileSystem) : List (String × Bytes) :=
  after.entries.filterMap fun (path, entry) =>
    match entry, before.entry? path with
    | .file new, some (.file old) =>
        if new.content = old.content then none
        else some ((AbsolutePath.toText path).toString, new.content)
    | .file new, _ => some ((AbsolutePath.toText path).toString, new.content)
    | .directory _, _ => none

/-- The word for the level of a notice. -/
def levelName : NoticeLevel → String
  | .warning => "WARNING"
  | .error => "ERROR"

/-- The exit code of a run; a run that broke off has code 1. -/
def exitCode (run : CommandRun) : UInt32 :=
  match run.exit with
  | .refused .help => 0
  | .refused .misuse => 2
  | .finished code => code.toUInt32
  | .failed _ => 1

end MessageKeys.Program

open MessageKeys in
/-- Run a command on the snapshot given on the standard input. -/
def main (args : List String) : IO UInt32 := do
  let stdin ← IO.getStdin
  let some files := Program.load (← stdin.getLine)
    | do
      IO.eprintln "The snapshot cannot be used."
      return 2
  let (command, words) := Program.choose args
  let run := Program.run command files words
  for notice in run.notices do
    IO.eprintln (Program.levelName notice.level ++ " " ++ notice.message.toString)
  for line in run.lines do
    IO.print line.onOutput.toString
    IO.eprint line.onError.toString
  for (path, content) in Program.changes files run.files do
    IO.FS.writeBinFile path (ByteArray.mk content.toArray)
  return Program.exitCode run
