import DeadExports.Snapshot

/-!
# The program

Takes a snapshot of what the command line asks for, runs the command on it, and
writes the outcome.
-/

open DeadExports

def main (arguments : List String) : IO UInt32 := do
  let begun ← IO.monoMsNow
  let words := arguments.map Bytes.ofString
  let fs ← Snapshot.take words
  let execution ← IO.lazyPure fun _ => CommandLine.execute fs words
  let force ← IO.getEnv "CLICOLOR_FORCE"
  let refuse ← IO.getEnv "NO_COLOR"
  let allow ← IO.getEnv "CLICOLOR"
  let out ← IO.getStdout
  let environment := [("CLICOLOR_FORCE", force), ("NO_COLOR", refuse), ("CLICOLOR", allow)]
  let colored := CommandLine.wantsColor (fun name => (environment.lookup name).join) (← out.isTty)
  let outcome :=
    execution.outcome (.unlimited colored) ⟨(← IO.monoMsNow) - begun, 1⟩
  out.write ⟨outcome.stdout.written.toArray⟩
  out.flush
  let err ← IO.getStderr
  err.write ⟨outcome.stderr.written.toArray⟩
  err.flush
  return outcome.exitCode.toUInt32
