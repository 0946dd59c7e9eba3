import DeadExports.Check
import DeadExports.Options.Parser
import DeadExports.Report
import DeadExports.Text.Terminal

/-!
# The command line

The program has one command, `unused-exports`, and help for it. Findings go to
standard output through a buffer, then the summary goes to standard error. The exit
code is 2 for a command line that is not understood, 1 when the settings file cannot
be used, when output does not get through or when unused exports are to make the run
fail, and 0 otherwise.

A run is split in two: what it does, which needs the file tree, and what it
writes, which also needs the time that the first part took. Warnings are kept to
the log and not written.
-/

namespace DeadExports.CommandLine

/-! ## Words -/

inductive Command where
  | check
  | help
  deriving DecidableEq, Repr

def checkName : Bytes := Bytes.ofString "unused-exports"

def helpName : Bytes := Bytes.ofString "help"

/-- In front of a command only help can be asked for. -/
def programVocabulary : Options.Vocabulary Command where
  options := [.switch .help]
  commands := [(checkName, .check), (helpName, .help)]

inductive Topic where
  | program
  | check
  | help
  deriving DecidableEq, Repr

def Topic.lines : Topic → List String
  | .program =>
      ["Find dead exports in TypeScript codebases",
        "",
        "Usage: exportsweep <COMMAND>",
        "",
        "Commands:",
        "  unused-exports  Report exports whose name never appears in another file",
        "  help            Print this message or the help of the given subcommand(s)",
        "",
        "Options:",
        "  -h, --help  Print help"]
  | .check =>
      ["Report exports whose name never appears in another file",
        "",
        "Usage: exportsweep unused-exports [OPTIONS]",
        "",
        "Options:",
        "      --root <ROOT>         Root directory to scan [default: OpenKanban/src]",
        "      --allow <NAME>        Export name to always treat as used (repeatable)",
        "      --extension <SUFFIX>  File name suffix to scan, replacing the defaults (repeatable)",
        "      --config <FILE>       JSON settings file with `allow` and `extensions` arrays",
        "      --gitignore           Skip files matched by .gitignore/.ignore and hidden entries",
        "      --fail-on-unused      Exit with status 1 when unused exports are found",
        "  -q, --quiet               Do not print the summary line",
        "  -h, --help                Print help"]
  | .help =>
      ["Print this message or the help of the given subcommand(s)",
        "",
        "Usage: exportsweep help [COMMAND]...",
        "",
        "Arguments:",
        "  [COMMAND]...  Print help for the subcommand(s)"]

def Topic.text (topic : Topic) : String :=
  String.join (topic.lines.map (· ++ "\n"))

def Command.topic : Command → Topic
  | .check => .check
  | .help => .help

inductive Problem where
  | nothingAsked
  | badWord (problem : Options.Problem)
  deriving DecidableEq, Repr

def Problem.message : Problem → String
  | .nothingAsked => Topic.program.text
  | .badWord problem =>
      let problem := problem.message Text.Terminal.written
      s!"{problem}\n"

inductive Request where
  | help (topic : Topic)
  | check (options : Options)
  deriving DecidableEq, Repr

/-- Reads the words after `help`: at most one command. -/
def readTopic : List Bytes → Except Problem Request
  | [] => .ok (.help .program)
  | word :: words =>
      match programVocabulary.command? word, words with
      | none, _ => .error (.badWord (.unknownCommand (Utf8.decodeReplacing word)))
      | some command, [] => .ok (.help command.topic)
      | some _, other :: _ => .error (.badWord (.unknownCommand (Utf8.decodeReplacing other)))

def readCheck (words : List Bytes) : Except Problem Request :=
  match Options.parse words with
  | .ok options => .ok (.check options)
  | .error .helpWanted => .ok (.help .check)
  | .error problem => .error (.badWord problem)

def readRequest (words : List Bytes) : Except Problem Request :=
  match Options.readWords programVocabulary ⟨.empty, none⟩ words with
  | .ok (.command .check words) => readCheck words
  | .ok (.command .help words) => readTopic words
  | .ok (.options _) => .error .nothingAsked
  | .error .helpWanted => .ok (.help .program)
  | .error problem => .error (.badWord problem)

/-! ## What a run does -/

inductive Execution where
  | help (topic : Topic)
  | misunderstood (problem : Problem)
  | checked (options : Options) (check : Except Settings.Failure CheckRun)

def execute (fs : FileSystem) (words : List Bytes) : Execution :=
  match readRequest words with
  | .error problem => .misunderstood problem
  | .ok (.help topic) => .help topic
  | .ok (.check options) => .checked options (runCheck fs (.ofOptions options))

/-! ## What a run writes -/

structure Terminal where
  stdout : Sink
  stderr : Sink
  colored : Bool
  deriving DecidableEq, Repr

def Terminal.unlimited (colored : Bool) : Terminal := ⟨.unlimited, .unlimited, colored⟩

/-- Whether the environment asks for colours: `CLICOLOR_FORCE` turns them on,
`NO_COLOR` turns them off, and otherwise a terminal has them unless `CLICOLOR`
forbids it. A variable that is `0` does not count as set, except for `NO_COLOR`. -/
def wantsColor (setting? : String → Option String) (isTerminal : Bool) : Bool :=
  let isOn (name : String) : Option Bool := (setting? name).map (· ≠ "0")
  if isOn "CLICOLOR_FORCE" = some true then true
  else if (setting? "NO_COLOR").isSome then false
  else (isOn "CLICOLOR").getD true && isTerminal

structure Outcome where
  exitCode : Nat
  stdout : Sink
  stderr : Sink
  deriving DecidableEq, Repr

inductive Fatal where
  | settings (failure : Settings.Failure)
  | output (error : SinkError)

/-- A text whose lines after the first are indented like the first. -/
def indented (text : String) : Text :=
  text.toList.flatMap fun c => if c = '\n' then '\n' :: "    ".toList else [c]

def Fatal.text : Fatal → Text
  | .settings failure =>
      "Error: ".toList ++ failure.context.toList ++ "\n\nCaused by:\n    ".toList ++
        indented failure.cause ++ ['\n']
  | .output error => "Error: ".toList ++ error.message.toList ++ ['\n']

structure Streams where
  out : BufferedSink
  err : Sink

def toOut (write : BufferedSink → BufferedSink × Option SinkError) : EStateM Fatal Streams Unit :=
  fun streams =>
    match write streams.out with
    | (out, none) => .ok () { streams with out }
    | (out, some error) => .error (.output error) { streams with out }

def toErr (write : Sink → Sink × Option SinkError) : EStateM Fatal Streams Unit :=
  fun streams =>
    match write streams.err with
    | (err, none) => .ok () { streams with err }
    | (err, some error) => .error (.output error) { streams with err }

/-- How a run ends that does not give up. -/
inductive Ending where
  /-- With all that belongs to the end of a program. -/
  | returns
  /-- At once, with exit code 1. -/
  | exits
  deriving DecidableEq, Repr

/-- Writes the findings of a check and, when they have got through, its summary. -/
def finish
    (colored : Bool) (stats : RunStats) (options : Options)
    (check : Except Settings.Failure CheckRun) : EStateM Fatal Streams Ending := do
  let run ← ofExcept (check.mapError Fatal.settings)
  toOut (writeReport · run.result.findings)
  toOut Writer.flush
  unless options.quiet do
    toErr (writeSummary · colored run.result stats)
  if options.failOnUnused && !run.result.findings.isEmpty then
    return .exits
  return .returns

/-- What a run writes and returns. A buffer is closed when the run returns or gives up,
and not when it ends at once. -/
def Execution.outcome (terminal : Terminal) (stats : RunStats) : Execution → Outcome
  | .help topic => ⟨0, terminal.stdout.take (Bytes.ofString topic.text), terminal.stderr⟩
  | .misunderstood problem =>
      ⟨2, terminal.stdout, terminal.stderr.take (Bytes.ofString problem.message)⟩
  | .checked options check =>
      let streams : Streams := ⟨.ofSink terminal.stdout, terminal.stderr⟩
      match finish terminal.colored stats options check streams with
      | .ok .returns streams => ⟨0, streams.out.close, streams.err⟩
      | .ok .exits streams => ⟨1, streams.out.inner, streams.err⟩
      | .error fatal streams =>
          ⟨1, streams.out.close, streams.err.take (Text.encode fatal.text)⟩

def run (fs : FileSystem) (terminal : Terminal) (stats : RunStats) (words : List Bytes) :
    Outcome :=
  (execute fs words).outcome terminal stats

end DeadExports.CommandLine
