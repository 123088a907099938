import MessageKeys.Files.FileSystem

/-!
# Wildcards

A pattern is matched component by component: `*` stands for any run of code points, `?`
for one, brackets for one of a set, and a component `**` for any number of directories below
one, also for none of them.  Links to directories are entered.
Names that start with a dot are matched only by a component that does so too.  Components
before the first with a wildcard are taken as they are; they have to be usable, since the
directory that they name is listed.
-/

namespace MessageKeys.Wildcard

/-- One item of a component. -/
inductive Token where
  | point (c : CodePoint)
  | anyPoint
  | anyRun
  | oneOf (negated : Bool) (ranges : List (CodePoint × CodePoint))
  deriving DecidableEq, Repr

/-- The size of the inside of brackets, given the text after the opening one.  An
exclamation mark in front and a bracket right there do not close. -/
def bracketSize? (t : Text) : Option Nat :=
  let mark := if t.head? = some (CodePoint.ofChar '!') then 1 else 0
  let lead := if (t.drop mark).head? = some (CodePoint.ofChar ']') then mark + 1 else mark
  let size := lead + ((t.drop lead).takeWhile (· ≠ CodePoint.ofChar ']')).length
  if size < t.length then some size else none

/-- Cut the inside of brackets at the hyphens that make ranges.  A hyphen makes a range if
a code point stands before it that does not end another one; the first argument counts the
code points to pass before that can be. -/
def chunks : Nat → Text → List Text
  | _, [] => [[]]
  | 0, c :: rest =>
      if c = ('-' : Char) then [] :: chunks 2 rest
      else match chunks 0 rest with
        | [] => [[c]]
        | chunk :: others => (c :: chunk) :: others
  | wait + 1, c :: rest =>
      match chunks wait rest with
      | [] => [[c]]
      | chunk :: others => (c :: chunk) :: others

/-- A hyphen at the end makes no range. -/
def closeChunks (chunks : List Text) : List Text :=
  match chunks.reverse with
  | [] :: last :: others => ((last ++ [CodePoint.ofChar '-']) :: others).reverse
  | _ => chunks

/-- Drop ranges that run backwards: their ends are gone and their neighbours join. -/
def dropBackward : List Text → List Text
  | [] => []
  | first :: rest =>
      match dropBackward rest with
      | [] => [first]
      | next :: others =>
          match first.getLast?, next.head? with
          | some low, some high =>
              if high < low then (first.dropLast ++ next.drop 1) :: others
              else first :: next :: others
          | _, _ => first :: next :: others

/-- The ranges that chunks stand for: a range joins each two neighbours, all else stands
for itself.  `opened` says that the first code point ended a range. -/
def rangesOf (opened : Bool) : List Text → List (CodePoint × CodePoint)
  | [] => []
  | [chunk] => (if opened then chunk.drop 1 else chunk).map fun c => (c, c)
  | chunk :: next :: others =>
      let inner := (if opened then chunk.drop 1 else chunk).dropLast
      let joined :=
        match chunk.getLast?, next.head? with
        | some low, some high => [(low, high)]
        | _, _ => []
      inner.map (fun c => (c, c)) ++ joined ++ rangesOf true (next :: others)

/-- The item for the inside of brackets.  An exclamation mark in front asks for the code
points that are not there; right after it a hyphen makes no range. -/
def bracketToken (inside : Text) : Token :=
  let parts :=
    if inside.contains (CodePoint.ofChar '-') then
      let wait := if inside.head? = some (CodePoint.ofChar '!') then 2 else 1
      dropBackward (closeChunks (chunks wait inside))
    else [inside]
  match parts with
  | [] => .oneOf false []
  | first :: others =>
      if first.head? = some (CodePoint.ofChar '!') then
        match first.drop 1, others with
        | [], next :: more =>
            .oneOf true (rangesOf false ((CodePoint.ofChar '-' :: next) :: more))
        | body, _ => .oneOf true (rangesOf false (body :: others))
      else .oneOf false (rangesOf false parts)

/-- The items of a component. -/
def tokens (t : Text) : List Token :=
  match t with
  | [] => []
  | c :: rest =>
      if c = ('*' : Char) then .anyRun :: tokens rest
      else if c = ('?' : Char) then .anyPoint :: tokens rest
      else if c = ('[' : Char) then
        match bracketSize? rest with
        | some size => bracketToken (rest.take size) :: tokens (rest.drop (size + 1))
        | none => .point c :: tokens rest
      else .point c :: tokens rest
termination_by t.length
decreasing_by all_goals simp only [List.length_cons, List.length_drop]; omega

/-- Whether an item that stands for one code point stands for `c`. -/
def Token.takes : Token → CodePoint → Bool
  | .point d, c => decide (c = d)
  | .anyPoint, _ => true
  | .anyRun, _ => false
  | .oneOf negated ranges, c =>
      negated != ranges.any fun range => decide (range.1 ≤ c) && decide (c ≤ range.2)

/-- For each end of a name, longest first, whether nothing is left of it. -/
def endRow : Text → List Bool
  | [] => [true]
  | _ :: rest => false :: endRow rest

/-- For each place of a row, whether it or a later one is marked. -/
def spreadRow : List Bool → List Bool
  | [] => []
  | mark :: rest =>
      let later := spreadRow rest
      (mark || later.headD false) :: later

/-- For each end of a name, whether it starts with a code point that an item takes and
goes on with an end that is marked. -/
def takeRow (token : Token) : Text → List Bool → List Bool
  | c :: rest, _ :: marks => (token.takes c && marks.headD false) :: takeRow token rest marks
  | _, _ => [false]

/-- For each end of a name, longest first, whether items match it.  A row is made from the
row for the items after the first, so that no end is tried twice. -/
def matchRow (name : Text) : List Token → List Bool
  | [] => endRow name
  | .anyRun :: rest => spreadRow (matchRow name rest)
  | token :: rest => takeRow token name (matchRow name rest)

/-- Whether items match a whole name. -/
def matchTokens (items : List Token) (name : Text) : Bool :=
  (matchRow name items).headD false

/-- Whether a component matches a name, leaving dots aside. -/
def matchName (component name : Text) : Bool :=
  matchTokens (tokens component) name

/-- Whether a component has a wildcard in it. -/
def hasMagic (component : Text) : Bool :=
  component.any fun c =>
    decide (c = CodePoint.ofChar '*') || decide (c = CodePoint.ofChar '?')
      || decide (c = CodePoint.ofChar '[')

/-- A name that wildcards pass over. -/
def isHidden (name : Text) : Bool :=
  name.head? = some (CodePoint.ofChar '.')

/-- The component for any number of directories. -/
def anyDepth : Text := "**"

/-- The components from a directory to a path below it, if none of them is hidden. -/
def openSteps? (directory path : AbsolutePath) : Option (List Text) :=
  let below := path.drop directory.length
  if path.take directory.length = directory && !below.isEmpty && !below.any isHidden then some below
  else none

/-- The paths below a directory, relative to it, with no link and no hidden name on the way. -/
def openEntries (fs : FileSystem) (directoriesOnly : Bool) (directory : AbsolutePath) :
    List (List Text) :=
  fs.entries.filterMap fun (path, entry) =>
    if !directoriesOnly || entry.isDirectory then openSteps? directory path else none

/-- The paths below a directory, relative to it, with no hidden name on the way.  The number
says how many links may be entered one after the other; there is no need to enter one twice,
since that leads to the same places. -/
def openBelow (fs : FileSystem) (directoriesOnly : Bool) :
    Nat → AbsolutePath → List (List Text)
  | 0, directory => openEntries fs directoriesOnly directory
  | more + 1, directory =>
      openEntries fs directoriesOnly directory
        ++ fs.links.flatMap fun (path, target) =>
          match openSteps? directory path, fs.entry? target with
          | some steps, some (.directory _) =>
              steps :: (openBelow fs directoriesOnly more target).map (steps ++ ·)
          | some steps, some (.file _) => if directoriesOnly then [] else [steps]
          | _, _ => []

/-- Extend a path by all that a component matches in it. -/
def extend (fs : FileSystem) (component : Text) (last : Bool) (path : Path) : List Path :=
  let directory? : Option AbsolutePath :=
    match fs.locate path with
    | .ok (place, .directory _) => some place
    | _ => none
  let longer (parts : List Text) : Path := { path with parts := path.parts ++ parts }
  if component = anyDepth then
    match directory? with
    | some directory => path :: (openBelow fs (!last) fs.links.length directory).map longer
    | none => []
  else if hasMagic component then
    match directory? with
    | some directory =>
        (fs.list directory).filterMap fun (name, entry) =>
          if (isHidden component || !isHidden name) && (last || entry.isDirectory)
              && matchName component name then some (longer [name])
          else none
    | none => []
  else match fs.locate (longer [component]) with
    | .ok (_, entry) =>
        if component.isEmpty && !entry.isDirectory then [] else [longer [component]]
    | .error _ => []

/-- Extend paths by components, one after the other.  A path that is reached in several
ways is followed once. -/
def extendAll (fs : FileSystem) : List Text → List Path → List Path
  | [], paths => paths
  | component :: rest, paths =>
      extendAll fs rest (paths.flatMap (extend fs component rest.isEmpty)).eraseDups

/-- Why a search for files stopped. -/
inductive SearchError where
  | file (e : FileError)
  | tooDeep
  deriving DecidableEq, Repr

/-- The number of components that a pattern may have from its first wildcard on. -/
def depthLimit : Nat := 988

/-- The pieces of a pattern between its slashes, after the slashes that it starts with. -/
def pieces (pattern : Text) : List Text :=
  (Text.splitOn PathName.slash pattern).drop (PathName.leading pattern)

/-- Pieces without the empty ones at the end. -/
def trimmed (pieces : List Text) : List Text :=
  (pieces.reverse.dropWhile List.isEmpty).reverse

/-- Pieces without the empty ones before the last.  A slash at the end of a pattern leaves
an empty piece, which only directories match. -/
def compact (pieces : List Text) : List Text :=
  (pieces.dropLast.filter fun piece => !piece.isEmpty) ++ pieces.getLast?.toList

/-- A path without the components that say nothing. -/
def tidy (path : Path) : Path :=
  { path with parts := path.parts.filter Path.isPart }

/-- The paths that a pattern matches from a directory, which is itself none of them. -/
def expand (fs : FileSystem) (directory : Path) (pattern : Text) :
    Except SearchError (List Path) :=
  let start : Path := directory.join ⟨(Path.ofText pattern).anchor, []⟩
  let below (parts : List Text) : Path := { start with parts := start.parts ++ parts }
  let fixed := (pieces pattern).takeWhile fun piece => !hasMagic piece
  let moving := compact ((pieces pattern).dropWhile fun piece => !hasMagic piece)
  if moving.isEmpty then
    match fs.locate (below fixed) with
    | .ok _ => .ok [tidy (below fixed)]
    | .error _ => .ok []
  else if depthLimit < moving.length then .error .tooDeep
  else
    let base := below (trimmed fixed)
    match base.usableBytes with
    | .error fault => .error (.file (.path fault))
    | .ok _ => .ok (((extendAll fs moving [base]).filter (· ≠ start)).map tidy)

end MessageKeys.Wildcard
