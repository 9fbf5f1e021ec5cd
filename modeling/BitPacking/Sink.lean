import BitPacking.Error

namespace BitPacking

class ByteSink (ω : Type) where
  write : ω → Bytes → Except IoError Nat × ω
  flush : ω → Except IoError Unit × ω
  release : ω → ω

namespace ByteSink

def writeAll {ω : Type} [ByteSink ω] (sink : ω) (bytes : Bytes) : Except IoError Unit × ω :=
  match bytes with
  | [] => (.ok (), sink)
  | b :: bs =>
    match write sink (b :: bs) with
    | (.ok 0, sink) => (.error .writeZero, sink)
    | (.ok (n + 1), sink) => writeAll sink (bs.drop n)
    | (.error e, sink) => (.error e, sink)
termination_by bytes.length

end ByteSink

namespace Sink

-- A call as the sink sees it. An interrupted write is made again.
inductive Call
  | accepted (count : Nat)
  | interrupted
  | refused
  | flushed
  | released
deriving DecidableEq, Repr

-- How a sink answers, by a state of its own: how often a write is interrupted and what it comes to
-- in the end, and what a flush comes to.
structure Behaviour (σ : Type) where
  write : σ → Bytes → (Nat × Except IoError Nat) × σ
  flush : σ → Except IoError Unit × σ

end Sink

structure Sink (σ : Type) where
  behaviour : Sink.Behaviour σ
  state : σ
  calls : List Sink.Call := []
  writes : List Bytes := []
  flushes : List (Except IoError Unit) := []

namespace Sink

variable {σ : Type}

def accepted (s : Sink σ) : Bytes :=
  s.writes.reverse.flatten

def write (s : Sink σ) (bytes : Bytes) : Except IoError Nat × Sink σ :=
  let ((interruptions, outcome), state) := s.behaviour.write s.state bytes
  let calls := List.replicate interruptions .interrupted ++ s.calls
  match outcome with
  | .ok n =>
    let n := min n bytes.length
    (.ok n, { s with state, calls := .accepted n :: calls, writes := bytes.take n :: s.writes })
  | .error e => (.error e, { s with state, calls := .refused :: calls })

def flush (s : Sink σ) : Except IoError Unit × Sink σ :=
  let (outcome, state) := s.behaviour.flush s.state
  (outcome, { s with state, calls := .flushed :: s.calls, flushes := outcome :: s.flushes })

def release (s : Sink σ) : Sink σ :=
  { s with calls := .released :: s.calls }

instance : ByteSink (Sink σ) where
  write := write
  flush := flush
  release := release

structure Limits where
  maxWrite : Option Nat := none
  capacity : Option Nat := none
  -- Whether a write that finds no room is a failure where there is a capacity, or else accepts
  -- nothing.
  refuses : Bool := true
  -- Writes are counted from one, and those whose number this divides are interrupted. Below two it
  -- has no effect, since no write would ever come through.
  interruptEvery : Nat := 0
  flushes : Bool := true

structure Usage where
  writes : Nat := 0
  bytes : Nat := 0

namespace Limits

def interrupts (l : Limits) (u : Usage) : Bool :=
  2 ≤ l.interruptEvery ∧ (u.writes + 1) % l.interruptEvery = 0

def room (l : Limits) (u : Usage) (n : Nat) : Nat :=
  let n := l.maxWrite.elim n (min n)
  l.capacity.elim n fun capacity => min n (capacity - u.bytes)

def write (l : Limits) (u : Usage) (n : Nat) : (Nat × Except IoError Nat) × Usage :=
  let interruptions := if l.interrupts u then 1 else 0
  let u := { u with writes := u.writes + interruptions + 1 }
  let accepted := l.room u n
  if n ≠ 0 ∧ accepted = 0 ∧ l.refuses ∧ l.capacity.isSome then
    ((interruptions, .error (.other "sink full")), u)
  else
    ((interruptions, .ok accepted), { u with bytes := u.bytes + accepted })

def flush (l : Limits) (u : Usage) : Except IoError Unit × Usage :=
  (if l.flushes then .ok () else .error (.other "flush failed"), u)

def sink (l : Limits) : Sink Usage :=
  { behaviour := { write := fun u bytes => l.write u bytes.length, flush := l.flush }, state := {} }

end Limits
end Sink
end BitPacking
