import MessageKeys.Text.Digit

/-!
# Command line arguments

A command line is a list of words: options, their values, and operands.  A long option may
be shortened to any beginning that no other option shares, and takes its value from the
next word or after `=`; short options without a value may share a word, and the letters of
the others may also stand after `=`.  The word `--` makes all words after it operands, and
it is never a value: an option with `--` after its `=` is given, but has no value.  Operands
are taken from the first place where some stand; those that stand elsewhere are too many.
-/

namespace MessageKeys

/-- An option of a command. -/
structure CommandOption where
  /-- The spellings of the option, the long one first. -/
  names : List Text
  takesValue : Bool := false
  /-- The values it takes, if not every value. -/
  choices : Option (List Text) := none
  /-- The name of an option that it cannot be combined with. -/
  conflict : Option Text := none
  deriving DecidableEq, Repr

namespace CommandOption

/-- The name by which an option is known. -/
def name (option : CommandOption) : Text :=
  option.names.headD []

/-- The option that asks for help. -/
def help : CommandOption where
  names := ["--help", "-h"]

end CommandOption

/-- What a command line may hold. -/
structure CommandGrammar where
  options : List CommandOption
  /-- Whether the command needs operands; otherwise it takes none. -/
  takesOperands : Bool
  deriving DecidableEq, Repr

/-- What a command line says. -/
structure Arguments where
  /-- The options in order, each with its value if it has one. -/
  given : List (Text × Option Text) := []
  operands : List Text := []
  /-- Whether there is a word that nothing takes. -/
  excess : Bool := false
  deriving DecidableEq, Repr

namespace Arguments

/-- Whether an option is given. -/
def has (arguments : Arguments) (name : Text) : Bool :=
  arguments.given.any fun entry => decide (entry.1 = name)

/-- What is given for an option, in order: a value each time, unless the value is missing. -/
def values (arguments : Arguments) (name : Text) : List (Option Text) :=
  (arguments.given.filter fun entry => decide (entry.1 = name)).map (·.2)

/-- The value given last for an option. -/
def value? (arguments : Arguments) (name : Text) : Option Text :=
  (arguments.values name).getLast?.join

/-- Whether an option is given, and the last time without its value. -/
def lacksValue (arguments : Arguments) (name : Text) : Bool :=
  (arguments.values name).getLast? = some none

/-- Why a command line is not carried out. -/
inductive Stop where
  | help
  | misuse
  deriving DecidableEq, Repr

/-- The word that separates options from operands. -/
def separator : Text := "--"

/-- What a word is. -/
inductive Word where
  | operand (text : Text)
  | separator
  | unknown
  /-- An option as it is spelled, with what follows the spelling in the word. -/
  | option (option : CommandOption) (spelled : Text) (attached : Option Text)
  deriving DecidableEq, Repr

/-- A text without the newline at its end. -/
def dropNewline (t : Text) : Text :=
  if t.getLast? = some (CodePoint.ofChar '\n') then t.dropLast else t

/-- Whether a word is a negative number: a minus sign, then digits with or without a
fraction. A newline may follow, and the digits may be those of any script. -/
def isNegativeNumber (word : Text) : Bool :=
  match dropNewline word with
  | [] => false
  | first :: rest =>
      let whole := rest.takeWhile CodePoint.isDecimal
      first == CodePoint.ofChar '-' &&
        match rest.drop whole.length with
        | [] => !whole.isEmpty
        | point :: fraction =>
            point == CodePoint.ofChar '.' && !fraction.isEmpty && fraction.all CodePoint.isDecimal

/-- Split a word at its first `=`. -/
def splitEquals (word : Text) : Text × Option Text :=
  let before := word.takeWhile (· ≠ CodePoint.ofChar '=')
  match word.drop before.length with
  | [] => (before, none)
  | _ :: after => (before, some after)

/-- The spellings of all options, with their options. -/
def spellings (grammar : CommandGrammar) : List (Text × CommandOption) :=
  (CommandOption.help :: grammar.options).flatMap fun option =>
    option.names.map fun name => (name, option)

/-- The option with a spelling. -/
def find? (grammar : CommandGrammar) (spelled : Text) : Option CommandOption :=
  ((spellings grammar).find? fun entry => decide (entry.1 = spelled)).map (·.2)

/-- The readings of a word as a shortened long option, or as a short option with more in
its word. -/
def readings (grammar : CommandGrammar) (word : Text) : List Word :=
  let dash := CodePoint.ofChar '-'
  if [dash, dash].isPrefixOf word then
    let (name, value) := splitEquals word
    ((spellings grammar).filter fun entry => name.isPrefixOf entry.1).map fun entry =>
      .option entry.2 entry.1 value
  else
    ((spellings grammar).filter fun entry => decide (entry.1 = word.take 2)).map fun entry =>
      .option entry.2 entry.1 (some (word.drop 2))

/-- Read a word that starts with a dash and is not itself the spelling of an option. -/
def readDashed (grammar : CommandGrammar) (word : Text) : Except Stop Word :=
  let (name, value) := splitEquals word
  match value.bind fun text => (find? grammar name).map fun option =>
      Word.option option name (some text) with
  | some found => .ok found
  | none =>
      match readings grammar word with
      | [reading] => .ok reading
      | [] =>
          if isNegativeNumber word || word.contains (CodePoint.ofChar ' ') then
            .ok (.operand word)
          else .ok .unknown
      | _ => .error .misuse

/-- Read a word before any separator. -/
def readWord (grammar : CommandGrammar) (word : Text) : Except Stop Word :=
  match word with
  | [] => .ok (.operand word)
  | first :: rest =>
      if first ≠ CodePoint.ofChar '-' then .ok (.operand word)
      else match find? grammar word with
        | some option => .ok (.option option word none)
        | none => if rest.isEmpty then .ok (.operand word) else readDashed grammar word

/-- Read the words of a command line. -/
def readWords (grammar : CommandGrammar) : List Text → Except Stop (List Word)
  | [] => .ok []
  | word :: rest =>
      if word = separator then .ok (.separator :: rest.map .operand)
      else do
        let first ← readWord grammar word
        let others ← readWords grammar rest
        .ok (first :: others)

/-- Whether an option may have a value.  The separator is dropped and need not be one of
the choices. -/
def allows (option : CommandOption) (text : Text) : Bool :=
  text = separator || option.choices.all fun choices => choices.contains text

/-- Take one option with its value. -/
def take (arguments : Arguments) (option : CommandOption) (value : Option Text) :
    Except Stop Arguments :=
  if option = CommandOption.help then .error .help
  else if (option.conflict.map arguments.has).getD false then .error .misuse
  else if value.all (allows option) then
    let kept := value.filter fun text => decide (text ≠ separator)
    .ok { arguments with given := arguments.given ++ [(option.name, kept)] }
  else .error .misuse

/-- Take options one after the other. -/
def takeAll (arguments : Arguments) (options : List (CommandOption × Option Text)) :
    Except Stop Arguments :=
  options.foldlM (fun arguments (option, value) => arguments.take option value) arguments

/-- The options of one word.  The last one may have to get its value from the next word. -/
structure Cluster where
  taken : List (CommandOption × Option Text)
  pending : Option CommandOption

/-- Read the letters after a short option: each is a short option too, up to one that takes
the rest as its value. -/
def readLetters (grammar : CommandGrammar) (option : CommandOption) :
    Text → Except Stop Cluster
  | [] => .ok ⟨[], some option⟩
  | letter :: rest =>
      if option.takesValue then .ok ⟨[(option, some (letter :: rest))], none⟩
      else match find? grammar [CodePoint.ofChar '-', letter] with
        | none => .error .misuse
        | some next =>
            (readLetters grammar next rest).map fun more =>
              { more with taken := (option, none) :: more.taken }

/-- Read the options of one word. -/
def cluster (grammar : CommandGrammar) (option : CommandOption) (isShort : Bool) :
    Option Text → Except Stop Cluster
  | none => .ok ⟨[], some option⟩
  | some text =>
      if option.takesValue then .ok ⟨[(option, some text)], none⟩
      else if isShort && !text.isEmpty then readLetters grammar option text
      else .error .misuse

/-- Whether an operand list may start or go on at a word. -/
def Word.isOption : Word → Bool
  | .option _ _ _ | .unknown => true
  | .operand _ | .separator => false

/-- The text of an operand. -/
def Word.operand? : Word → Option Text
  | .operand text => some text
  | _ => none

/-- Take operands that stand together.  They count only if the command needs some and has
none yet. -/
def takeOperands (grammar : CommandGrammar) (arguments : Arguments) (words : List Word) :
    Arguments :=
  let operands := words.filterMap Word.operand?
  if grammar.takesOperands && arguments.operands.isEmpty && !operands.isEmpty then
    { arguments with operands }
  else { arguments with excess := arguments.excess || !words.isEmpty }

/-- Take words from left to right; `waiting` are operands that stand together before
them. -/
def takeWords (grammar : CommandGrammar) (arguments : Arguments) (waiting : List Word) :
    List Word → Except Stop Arguments
  | [] => .ok (takeOperands grammar arguments waiting)
  | .operand text :: rest => takeWords grammar arguments (waiting ++ [.operand text]) rest
  | .separator :: rest => takeWords grammar arguments (waiting ++ [.separator]) rest
  | .unknown :: rest =>
      takeWords grammar { takeOperands grammar arguments waiting with excess := true } [] rest
  | .option option spelled attached :: rest => do
      let before := takeOperands grammar arguments waiting
      let isShort := spelled.length == 2
      let found ← cluster grammar option isShort attached
      match found.pending with
      | none =>
          let after ← before.takeAll found.taken
          takeWords grammar after [] rest
      | some last =>
          if last.takesValue then
            match rest with
            | .operand value :: rest =>
                let after ← before.takeAll (found.taken ++ [(last, some value)])
                takeWords grammar after [] rest
            | _ => .error .misuse
          else
            let after ← before.takeAll (found.taken ++ [(last, none)])
            takeWords grammar after [] rest

/-- Read a command line. -/
def read (grammar : CommandGrammar) (words : List Text) : Except Stop Arguments := do
  let arguments ← takeWords grammar {} [] (← readWords grammar words)
  if arguments.excess || (grammar.takesOperands && arguments.operands.isEmpty) then .error .misuse
  else .ok arguments

end Arguments

end MessageKeys
