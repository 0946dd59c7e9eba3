import DeadExports.Text.Basic

/-!
# Sinks

Output goes to a sink in fragments. A sink may have room for a limited number of
bytes: it takes what fits of a fragment, and a fragment that does not fit is an
error after which nothing more is written. Once all fragments are written the
sink is flushed, which may fail too.

A buffer can stand in front of a sink. It holds fragments back until there is no
space left for the next one or until it is flushed; a fragment as long as the whole
buffer goes past it. What it holds back is lost when the program ends before the
buffer is closed.
-/

namespace DeadExports

inductive SinkError where
  | full
  | flushFailed
  deriving DecidableEq, Repr

def SinkError.message : SinkError → String
  | .full => "sink full"
  | .flushFailed => "flush failed"

class Writer (σ : Type) where
  /-- Writes a fragment; when it fails, a part of it may have been written. -/
  put : σ → Bytes → σ × Option SinkError
  flush : σ → σ × Option SinkError

/-- Writes fragments one after the other and flushes in the end. The first error
ends the writing. -/
def Writer.writeAll {σ : Type} [Writer σ] : σ → List Bytes → σ × Option SinkError
  | sink, [] => flush sink
  | sink, fragment :: fragments =>
      match put sink fragment with
      | (sink, none) => writeAll sink fragments
      | (sink, some error) => (sink, some error)

structure Sink where
  room : Option Nat
  flushFails : Bool
  written : Bytes
  deriving DecidableEq, Repr

namespace Sink

def unlimited : Sink := ⟨none, false, []⟩

def fitting (sink : Sink) (fragment : Bytes) : Nat :=
  match sink.room with
  | none => fragment.length
  | some room => min room fragment.length

/-- The sink after it has taken what fits of a fragment. -/
def take (sink : Sink) (fragment : Bytes) : Sink :=
  { sink with
    room := sink.room.map (· - sink.fitting fragment)
    written := sink.written ++ fragment.take (sink.fitting fragment) }

def put (sink : Sink) (fragment : Bytes) : Sink × Option SinkError :=
  (sink.take fragment, if sink.fitting fragment < fragment.length then some .full else none)

def flush (sink : Sink) : Option SinkError :=
  if sink.flushFails then some .flushFailed else none

instance : Writer Sink where
  put := put
  flush sink := (sink, sink.flush)

end Sink

structure BufferedSink where
  pending : Bytes
  inner : Sink
  deriving DecidableEq, Repr

namespace BufferedSink

def capacity : Nat := 8192

def ofSink (sink : Sink) : BufferedSink := ⟨[], sink⟩

/-- Hands on what is held back. What does not fit stays in the buffer. -/
def drain (sink : BufferedSink) : BufferedSink × Option SinkError :=
  let (inner, failure) := sink.inner.put sink.pending
  (⟨sink.pending.drop (sink.inner.fitting sink.pending), inner⟩, failure)

/-- Takes a fragment for which the buffer has been drained if need be. -/
def accept (sink : BufferedSink) (fragment : Bytes) : BufferedSink × Option SinkError :=
  if capacity ≤ fragment.length then
    let (inner, failure) := sink.inner.put fragment
    ({ sink with inner }, failure)
  else ({ sink with pending := sink.pending ++ fragment }, none)

def put (sink : BufferedSink) (fragment : Bytes) : BufferedSink × Option SinkError :=
  if fragment.length ≤ capacity - sink.pending.length then sink.accept fragment
  else
    match sink.drain with
    | (sink, none) => sink.accept fragment
    | (sink, some error) => (sink, some error)

def flush (sink : BufferedSink) : BufferedSink × Option SinkError :=
  match sink.drain with
  | (sink, none) => (sink, sink.inner.flush)
  | (sink, some error) => (sink, some error)

/-- What becomes of the sink when the buffer is given up. Errors are ignored. -/
def close (sink : BufferedSink) : Sink :=
  sink.drain.1.inner

instance : Writer BufferedSink where
  put := put
  flush := flush

end BufferedSink

end DeadExports
