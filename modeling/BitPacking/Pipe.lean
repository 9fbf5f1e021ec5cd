import BitPacking.Sink
import BitPacking.Source

namespace BitPacking

namespace Pipe

inductive Message
  | chunk (bytes : Bytes)
  | abort
deriving DecidableEq, Repr

end Pipe

structure Pipe where
  -- The number of messages that fit in the queue. Without any room, a message is handed over only
  -- when the reader is waiting for it.
  capacity : Nat
  -- The messages that the reader has not taken yet, the oldest first.
  queue : List Pipe.Message := []
  rest : Bytes := []
  writer : Bool := true
  handles : Nat := 0
  reader : Bool := true
  -- Whether the reader has asked for a message in vain.
  waiting : Bool := false
  aborted : Bool := false
deriving DecidableEq, Repr

namespace Pipe

def defaultCapacity : Nat :=
  16

def ofCapacity (capacity : Nat) : Pipe :=
  { capacity }

def isClosed (p : Pipe) : Bool :=
  !p.writer && p.handles == 0

def hasRoom (p : Pipe) : Bool :=
  p.queue.length < p.capacity || p.waiting && p.queue.isEmpty

def send (p : Pipe) (m : Message) : Except IoError Unit × Pipe :=
  if !p.reader then
    (.error .pipeReaderGone, p)
  else if p.hasRoom then
    (.ok (), { p with queue := p.queue ++ [m] })
  else
    (.error .wouldBlock, p)

def write (p : Pipe) (bytes : Bytes) : Except IoError Nat × Pipe :=
  if bytes.isEmpty then
    (.ok 0, p)
  else if !p.writer then
    (.error .pipeClosed, p)
  else
    match p.send (.chunk bytes) with
    | (.ok _, p) => (.ok bytes.length, p)
    | (.error e, p) => (.error e, p)

def close (p : Pipe) : Pipe :=
  { p with writer := false }

-- An abort has nobody to fail where the reader is gone.
def sendAbort (p : Pipe) : Option Pipe :=
  match p.send .abort with
  | (.error .wouldBlock, _) => none
  | (_, p) => some p

def abort (p : Pipe) : Option Pipe :=
  if p.writer then return (← p.sendAbort).close else some p

def addHandle (p : Pipe) : Option Pipe :=
  if p.writer then some { p with handles := p.handles + 1 } else none

def dropHandle (p : Pipe) : Pipe :=
  { p with handles := p.handles - 1 }

def abortHandle (p : Pipe) : Option Pipe :=
  return (← p.sendAbort).dropHandle

def dropReader (p : Pipe) : Pipe :=
  { p with reader := false, queue := [], rest := [] }

-- Reads up to `n` bytes, all from one chunk. No bytes mean the end of the input, unless none were
-- asked for.
def read (p : Pipe) (n : Nat) : Except IoError Bytes × Pipe :=
  if p.aborted then
    (.error .pipeAborted, p)
  else if n = 0 then
    (.ok [], p)
  else if p.rest ≠ [] then
    (.ok (p.rest.take n), { p with rest := p.rest.drop n })
  else
    match p.queue with
    | .chunk bytes :: queue =>
      (.ok (bytes.take n), { p with queue, rest := bytes.drop n, waiting := false })
    | .abort :: queue => (.error .pipeAborted, { p with queue, aborted := true, waiting := false })
    | [] => if p.isClosed then (.ok [], p) else (.error .wouldBlock, { p with waiting := true })

instance : ByteSink Pipe where
  write := write
  flush p := (.ok (), p)
  release := close

def Message.bytes : Message → Bytes
  | chunk bytes => bytes
  | abort => []

def weight (p : Pipe) : Nat :=
  p.rest.length + (p.queue.flatMap Message.bytes).length + p.queue.length

theorem read_weight_lt {p p' : Pipe} {n : Nat} {bytes : Bytes} (h : p.read n = (.ok bytes, p'))
    (hb : bytes ≠ []) : p'.weight < p.weight := by
  simp only [read] at h
  split at h
  · cases h
  split at h
  · cases h; exact absurd rfl hb
  split at h
  · next hr =>
    cases h
    have := List.length_pos_iff.2 hr
    simp [weight]; omega
  split at h
  · next hq => cases h; simp [weight, hq, Message.bytes]; omega
  · cases h
  · split at h
    · cases h; exact absurd rfl hb
    · cases h

theorem read_weight_le {p p' : Pipe} {n : Nat} {outcome : Except IoError Bytes}
    (h : p.read n = (outcome, p')) : p'.weight ≤ p.weight := by
  simp only [read] at h
  repeat' split at h
  all_goals cases h; simp_all [weight, Message.bytes]; try omega

def readToEnd (p : Pipe) (n : Nat) : (Bytes × Option IoError) × Pipe :=
  go p []
where
  go (p : Pipe) (chunks : List Bytes) : (Bytes × Option IoError) × Pipe :=
    match _h : p.read n with
    | (.ok [], p') => ((chunks.reverse.flatten, none), p')
    | (.ok (b :: bs), p') => go p' ((b :: bs) :: chunks)
    | (.error e, p') => ((chunks.reverse.flatten, some e), p')
  termination_by p.weight
  decreasing_by exact read_weight_lt ‹_› (by simp)

end Pipe
end BitPacking
