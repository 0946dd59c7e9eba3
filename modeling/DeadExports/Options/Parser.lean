import DeadExports.Options.Basic

/-!
# Reading options

The words of a command line are read from left to right and the first problem
wins. Words are any bytes. A value may follow its option as the next word or after
an equals sign. An option whose value is the next word is only recorded when the
next option comes up or the words end, so a word that belongs to nothing is
reported before anything that is wrong with the option in front of it.

A vocabulary says which options and commands are understood. The name of a command
ends the reading, and the words behind it are read with a vocabulary of their own.
-/

namespace DeadExports.Options

/-! ## Vocabularies -/

/-- The options and the commands that are understood at one place. -/
structure Vocabulary (κ : Type) where
  options : List Named
  commands : List (Bytes × κ)

section Vocabularies

variable {κ : Type} (vocabulary : Vocabulary κ)

def Vocabulary.named? (name : Bytes) : Option Named :=
  vocabulary.options.find? (·.name = name)

def Vocabulary.switch? (letter : UInt8) : Option Switch :=
  vocabulary.options.findSome? fun
    | .switch switch => if switch.letter? = some letter then some switch else none
    | .valued _ => none

def Vocabulary.command? (word : Bytes) : Option κ :=
  vocabulary.commands.lookup word

/-- What is wrong with a word that belongs to nothing. Where there are commands it
is taken for one, but the name of a command must not stand behind a separator. -/
def Vocabulary.stray (behindSeparator : Bool) (word : Bytes) : Problem :=
  if vocabulary.commands.isEmpty || behindSeparator && (vocabulary.command? word).isSome then
    .unexpectedArgument (Utf8.decodeReplacing word)
  else .unknownCommand (Utf8.decodeReplacing word)

end Vocabularies

/-! ## Drafts -/

structure Draft where
  root : Option Path
  allow : List Text
  extensions : List Text
  config : Option Path
  gitignore : Bool
  failOnUnused : Bool
  quiet : Bool
  deriving DecidableEq, Repr

def Draft.empty : Draft := ⟨none, [], [], none, false, false, false⟩

def Draft.options (draft : Draft) : Options where
  root := draft.root.getD defaultRoot
  allow := draft.allow
  extensions := draft.extensions
  config := draft.config
  gitignore := draft.gitignore
  failOnUnused := draft.failOnUnused
  quiet := draft.quiet

/-- The value of an option that is given at most once and never empty. -/
def recordOnce (option : Valued) (given : Option Path) (value : Bytes) :
    Except Problem (Option Path) :=
  if given.isSome then .error (.repeatedOption option)
  else if value.isEmpty then .error (.valueMissing option)
  else .ok (some value)

def recordText (given : List Text) (value : Bytes) : Except Problem (List Text) :=
  match Utf8.decode? value with
  | none => .error .invalidUtf8
  | some text => .ok (given ++ [text])

def Draft.record (draft : Draft) (option : Valued) (value : Bytes) : Except Problem Draft :=
  match option with
  | .root => (recordOnce .root draft.root value).map fun root => { draft with root }
  | .config => (recordOnce .config draft.config value).map fun config => { draft with config }
  | .allow => (recordText draft.allow value).map fun allow => { draft with allow }
  | .extension =>
      (recordText draft.extensions value).map fun extensions => { draft with extensions }

/-- Records a switch; each is given at most once. -/
def Draft.turnOn (draft : Draft) (switch : Switch) : Except Problem Draft :=
  match switch with
  | .gitignore =>
      if draft.gitignore then .error (.repeatedSwitch .gitignore)
      else .ok { draft with gitignore := true }
  | .failOnUnused =>
      if draft.failOnUnused then .error (.repeatedSwitch .failOnUnused)
      else .ok { draft with failOnUnused := true }
  | .quiet =>
      if draft.quiet then .error (.repeatedSwitch .quiet)
      else .ok { draft with quiet := true }
  | .help => .error .helpWanted

/-- An option that is not recorded yet, with its value once that has come. -/
structure Pending where
  option : Valued
  value : Option Bytes
  deriving DecidableEq, Repr

structure State where
  draft : Draft
  pending : Option Pending
  deriving DecidableEq, Repr

/-- Records the pending option. -/
def State.settle (state : State) : Except Problem Draft :=
  match state.pending with
  | none => .ok state.draft
  | some ⟨option, none⟩ => .error (.valueMissing option)
  | some ⟨option, some value⟩ => state.draft.record option value

/-! ## Words -/

def dash : UInt8 := 0x2D

def equalsSign : UInt8 := 0x3D

inductive Word where
  /-- `--`, after which no word is an option. -/
  | separator
  /-- `--name` or `--name=value`. -/
  | long (name : Bytes) (value : Option Bytes)
  /-- `-` and one or more letters. -/
  | letters (cluster : Bytes)
  /-- Any other word, `-` included. -/
  | plain (word : Bytes)
  deriving DecidableEq, Repr

/-- What follows the first equals sign. -/
def valuePart : Bytes → Option Bytes
  | [] => none
  | byte :: rest => if byte = equalsSign then some rest else valuePart rest

def Word.ofBytes (word : Bytes) : Word :=
  match after? [dash, dash] word, after? [dash] word with
  | some [], _ => .separator
  | some rest, _ => .long (rest.takeWhile (· ≠ equalsSign)) (valuePart rest)
  | none, some (first :: others) => .letters (first :: others)
  | none, _ => .plain word

/-- A letter that is not understood, as it is shown. When it is none, everything that follows
is shown with it. -/
def shownLetter (cluster : Bytes) : Text :=
  match Utf8.pieces cluster with
  | some letter :: _ => [letter]
  | _ => Utf8.decodeReplacing cluster

/-! ## Reading -/

section Reading

variable {κ : Type} (vocabulary : Vocabulary κ)

def readLetters : State → Bytes → Except Problem State
  | state, [] => .ok state
  | state, letter :: letters =>
      match vocabulary.switch? letter with
      | none => .error (.unexpectedArgument ('-' :: shownLetter (letter :: letters)))
      | some switch =>
          match state.settle with
          | .error problem => .error problem
          | .ok draft =>
              match draft.turnOn switch with
              | .error problem => .error problem
              | .ok draft => readLetters ⟨draft, none⟩ letters

def readLong (state : State) (name : Bytes) (value : Option Bytes) : Except Problem State := do
  match vocabulary.named? name, value with
  | none, _ => .error (.unexpectedArgument ('-' :: '-' :: Utf8.decodeReplacing name))
  | some (.switch switch), some value =>
      .error (.unexpectedValue (Utf8.decodeReplacing value) switch)
  | some (.switch switch), none =>
      let draft ← state.settle
      let draft ← draft.turnOn switch
      .ok ⟨draft, none⟩
  | some (.valued option), some value =>
      let draft ← state.settle
      let draft ← draft.record option value
      .ok ⟨draft, none⟩
  | some (.valued option), none =>
      let draft ← state.settle
      .ok ⟨draft, some ⟨option, none⟩⟩

/-- Reads a word that is no option: the value that is waited for, or a word too
many. -/
def readPlain (state : State) (word : Bytes) : Except Problem State :=
  match state.pending with
  | some ⟨option, none⟩ => .ok { state with pending := some ⟨option, some word⟩ }
  | _ => .error (vocabulary.stray false word)

/-- The command that a word names, unless a value is waited for. -/
def commandAt? (state : State) (word : Bytes) : Option κ :=
  match state.pending with
  | some ⟨_, none⟩ => none
  | _ => vocabulary.command? word

inductive Reading (κ : Type) where
  | options (draft : Draft)
  | command (command : κ) (words : List Bytes)
  deriving DecidableEq, Repr

def readWords : State → List Bytes → Except Problem (Reading κ)
  | state, [] => state.settle.map .options
  | state, word :: words =>
      match commandAt? vocabulary state word, Word.ofBytes word with
      | some command, _ => .ok (.command command words)
      | none, .separator =>
          match words with
          | [] => state.settle.map .options
          | word :: _ => .error (vocabulary.stray true word)
      | none, .long name value =>
          match readLong vocabulary state name value with
          | .error problem => .error problem
          | .ok state => readWords state words
      | none, .letters cluster =>
          match readLetters vocabulary state cluster with
          | .error problem => .error problem
          | .ok state => readWords state words
      | none, .plain word =>
          match readPlain vocabulary state word with
          | .error problem => .error problem
          | .ok state => readWords state words

end Reading

/-- A check understands all options and no commands. -/
def checkVocabulary : Vocabulary Empty where
  options :=
    [.valued .root, .valued .allow, .valued .extension, .valued .config, .switch .gitignore,
      .switch .failOnUnused, .switch .quiet, .switch .help]
  commands := []

def parse (words : List Bytes) : Except Problem Options :=
  match readWords checkVocabulary ⟨.empty, none⟩ words with
  | .error problem => .error problem
  | .ok (.options draft) => .ok draft.options

end DeadExports.Options
