import Stencil.Render.Basic

/-!
# Sinks

Where the bytes of a run go. A sink may have room for a number of bytes; of a write that does not
fit it takes what fits and fails. When a run has ended well and all is written, the sink is flushed,
which may fail too.
-/

set_option autoImplicit false

namespace Stencil

/-- A sink and the bytes it has taken. -/
structure Sink where
  /-- The bytes that the sink takes in all, if there is a bound. -/
  capacity : Option Nat
  failsFlush : Bool
  taken : List UInt8
  /-- Whether a flush has been asked for. -/
  flushed : Bool

namespace Sink

/-- An empty sink. -/
def empty (capacity : Option Nat) (failsFlush : Bool) : Sink :=
  ⟨capacity, failsFlush, [], false⟩

/-- Of some bytes, those that the sink still takes. -/
def fitting (s : Sink) (bytes : List UInt8) : List UInt8 :=
  match s.capacity with
  | none => bytes
  | some n => bytes.take (n - s.taken.length)

/-- Writes bytes; the answer is whether all were taken. -/
def write (s : Sink) (bytes : List UInt8) : Sink × Bool :=
  let fits := s.fitting bytes
  ({ s with taken := s.taken ++ fits }, fits.length == bytes.length)

/-- Writes what events write, until something is not taken. -/
def feed (s : Sink) : List Event → Sink × Bool
  | [] => (s, true)
  | e :: rest =>
    match s.write e.written.toUTF8.toList with
    | (s, true) => s.feed rest
    | (s, false) => (s, false)

/-- Flushes what has been taken. -/
def flush (s : Sink) : Sink × Except Error Unit :=
  ({ s with flushed := true }, if s.failsFlush then .error (.sink .flush) else .ok ())

/-- The end of a run whose events were all taken: one that has ended well is flushed. -/
def finish (s : Sink) : Except Error Unit → Sink × Except Error Unit
  | .ok _ => s.flush
  | .error e => (s, .error e)

end Sink

/-- Runs a program on a value into a sink. -/
def Program.execute (p : Program) (root : Value) (s : Sink) : Sink × Except Error Unit :=
  let run := p.run root
  match s.feed run.events with
  | (s, true) => s.finish run.outcome
  | (s, false) => (s, .error (.sink .full))

end Stencil
