import DeadExports.Check
import DeadExports.Sink

/-!
# Reports

A report has one line per finding, in the order of the findings. The summary is
a single line with the counts of a check, coloured on request. Both are lists of
fragments that can be written to anything that takes output; the bytes that a sink
without limits receives are their concatenation.
-/

namespace DeadExports

def lineStart : Text := "UNUSED EXPORT: ".toList

def lineMiddle : Text := " in ".toList

def Finding.fragments (finding : Finding) : List Text :=
  [lineStart, finding.name, lineMiddle, finding.file.display, ['\n']]

def reportFragments (findings : List Finding) : List Bytes :=
  (findings.flatMap Finding.fragments).map Text.encode

def writeReport {σ : Type} [Writer σ] (sink : σ) (findings : List Finding) :
    σ × Option SinkError :=
  Writer.writeAll sink (reportFragments findings)

def report (findings : List Finding) : Bytes :=
  (reportFragments findings).flatten

inductive Emphasis where
  | bullet
  | count
  | allUsed
  | someUnused
  deriving DecidableEq, Repr

/-- The terminal codes of an emphasis: bright blue, cyan, bold green and bold
yellow. -/
def Emphasis.code : Emphasis → Text
  | .bullet => "94".toList
  | .count => "36".toList
  | .allUsed => "1;32".toList
  | .someUnused => "1;33".toList

def Emphasis.apply (emphasis : Emphasis) (colored : Bool) (text : Text) : Text :=
  if colored then
    '\x1b' :: '[' :: emphasis.code ++ 'm' :: text ++ ['\x1b', '[', '0', 'm']
  else text

structure RunStats where
  elapsedMs : Nat
  threads : Nat
  deriving DecidableEq, Repr

def digits (count : Nat) : Text := Nat.toDigits 10 count

def summaryFragments (colored : Bool) (result : CheckResult) (stats : RunStats) : List Bytes :=
  let number (count : Nat) := Emphasis.count.apply colored (digits count)
  let unused := result.findings.length
  let outcome : Emphasis := if unused = 0 then .allUsed else .someUnused
  [Emphasis.bullet.apply colored ['●'],
    " Finished in ".toList, number stats.elapsedMs,
    "ms on ".toList, number result.filesScanned,
    " files (".toList, number result.exportsFound,
    " exports, ".toList, outcome.apply colored (digits unused),
    " unused, using ".toList, number stats.threads,
    " threads).\n".toList].map Text.encode

def writeSummary {σ : Type} [Writer σ]
    (sink : σ) (colored : Bool) (result : CheckResult) (stats : RunStats) :
    σ × Option SinkError :=
  Writer.writeAll sink (summaryFragments colored result stats)

def summary (colored : Bool) (result : CheckResult) (stats : RunStats) : Bytes :=
  (summaryFragments colored result stats).flatten

end DeadExports
