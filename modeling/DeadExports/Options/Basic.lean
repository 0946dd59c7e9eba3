import DeadExports.Path

/-!
# Options

What a scan can be told on the command line: four options that take a value and
three switches. Options that may be repeated collect their values in order. The
values that are paths are any bytes, the others are texts.
-/

namespace DeadExports

def defaultRoot : Path := Bytes.ofString "OpenKanban/src"

structure Options where
  root : Path
  allow : List Text
  extensions : List Text
  config : Option Path
  gitignore : Bool
  failOnUnused : Bool
  quiet : Bool
  deriving DecidableEq, Repr

def Options.default : Options where
  root := defaultRoot
  allow := []
  extensions := []
  config := none
  gitignore := false
  failOnUnused := false
  quiet := false

namespace Options

/-- The options that take a value. -/
inductive Valued where
  | root
  | allow
  | extension
  | config
  deriving DecidableEq, Repr

/-- The options that take none. -/
inductive Switch where
  | gitignore
  | failOnUnused
  | quiet
  | help
  deriving DecidableEq, Repr

inductive Named where
  | valued (option : Valued)
  | switch (switch : Switch)
  deriving DecidableEq, Repr

def Valued.name : Valued → String
  | .root => "root"
  | .allow => "allow"
  | .extension => "extension"
  | .config => "config"

/-- How messages name an option that takes a value. -/
def Valued.shown : Valued → String
  | .root => "--root <ROOT>"
  | .allow => "--allow <NAME>"
  | .extension => "--extension <SUFFIX>"
  | .config => "--config <FILE>"

def Switch.name : Switch → String
  | .gitignore => "gitignore"
  | .failOnUnused => "fail-on-unused"
  | .quiet => "quiet"
  | .help => "help"

def Switch.shown (switch : Switch) : String :=
  "--" ++ switch.name

def Switch.letter? : Switch → Option UInt8
  | .quiet => some 0x71
  | .help => some 0x68
  | _ => none

def Named.name : Named → Bytes
  | .valued option => Bytes.ofString option.name
  | .switch toggled => Bytes.ofString toggled.name

inductive Problem where
  | unexpectedArgument (argument : Text)
  | unknownCommand (word : Text)
  | valueMissing (option : Valued)
  | repeatedOption (option : Valued)
  | repeatedSwitch (switch : Switch)
  | unexpectedValue (value : Text) (switch : Switch)
  /-- A value that is to be a text is not. -/
  | invalidUtf8
  /-- Help was asked for before anything else was wrong. -/
  | helpWanted
  deriving DecidableEq, Repr

/-- The text of a problem, with the words of the command line passed through a
filter; help has the program's own first line. -/
def Problem.message (filter : Text → Text) : Problem → String
  | .unexpectedArgument argument =>
      let argument := String.ofList (filter argument)
      s!"error: unexpected argument '{argument}' found"
  | .unknownCommand word =>
      let word := String.ofList (filter word)
      s!"error: unrecognized subcommand '{word}'"
  | .valueMissing option =>
      let option := option.shown
      s!"error: a value is required for '{option}' but none was supplied"
  | .repeatedOption option =>
      let option := option.shown
      s!"error: the argument '{option}' cannot be used multiple times"
  | .repeatedSwitch switch =>
      let switch := switch.shown
      s!"error: the argument '{switch}' cannot be used multiple times"
  | .unexpectedValue value switch =>
      let value := String.ofList (filter value)
      let switch := switch.shown
      s!"error: unexpected value '{value}' for '{switch}' found; no more were expected"
  | .invalidUtf8 => "error: invalid UTF-8 was detected in one or more arguments"
  | .helpWanted => "Report TypeScript exports that no other file mentions"

end Options

end DeadExports
