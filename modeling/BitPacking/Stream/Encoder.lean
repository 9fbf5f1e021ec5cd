import BitPacking.Bits.Writer
import BitPacking.Config
import BitPacking.Header
import BitPacking.Sink

namespace BitPacking.Stream

inductive Phase
  | running
  | finished
  | aborted
deriving DecidableEq, Repr

structure Encoder where
  config : Config
  writer : Bits.Writer
  phase : Phase := .running
  valuesWritten : Nat := 0
  -- The number of bytes in the blocks that the sink accepted whole.
  bytesWritten : Nat := 0
  overflowWarnings : Nat := 0
deriving DecidableEq

namespace Encoder

def ofConfig (config : Config) : Except Error Encoder :=
  if config.Delimited then
    let header : Header := ⟨.ofNat config.bits⟩
    .ok { config, writer := .ofBytes header.encode }
  else
    .error .streamNotDelimited

def new (maxValue : UInt64) (containsZero : Bool) : Logged (Except Error Encoder) :=
  return (← Config.stream maxValue containsZero).bind ofConfig

def isFinished (e : Encoder) : Bool :=
  e.phase ≠ .running

def isAborted (e : Encoder) : Bool :=
  e.phase = .aborted

def refuse (e : Encoder) (cause : Error) : Encoder :=
  { e with overflowWarnings := e.overflowWarnings + cause.overflows }

def pack (e : Encoder) (value : UInt64) : Logged (Except Error Unit × Encoder) := do
  match ← e.config.remapNonDelimiter value with
  | .error cause => return (.error cause, e.refuse cause)
  | .ok stored =>
    match ← e.config.checkStored stored with
    | .error cause => return (.error cause, e.refuse cause)
    | .ok above => return (.ok (), { e with
        writer := e.writer.put stored e.config.bits
        valuesWritten := e.valuesWritten + 1
        overflowWarnings := e.overflowWarnings + above.toNat })

variable {ω : Type} [ByteSink ω]

def handOver (e : Encoder) (sink : ω) : Except Error Unit × Encoder × ω :=
  if e.writer.completeLength < Bytes.blockSize then
    (.ok (), e, sink)
  else
    let (block, writer) := e.writer.takeComplete
    let e := { e with writer }
    match ByteSink.writeAll sink block with
    | (.ok _, sink) => (.ok (), { e with bytesWritten := e.bytesWritten + block.length }, sink)
    | (.error cause, sink) => (.error (.io cause), e, sink)

-- Gives the stream up: what the sink did not get is lost, and no end marker follows.
def abort (e : Encoder) (sink : ω) : Logged (Encoder × ω) := do
  let (flushed, sink) := ByteSink.flush sink
  if let .error cause := flushed then
    .emit (.abortedSinkNotFlushed cause)
  return ({ e with phase := .aborted, writer := .empty }, ByteSink.release sink)

def push (e : Encoder) (sink : ω) (value : UInt64) :
    Logged (Except Error Unit × Encoder × ω) := do
  if e.isFinished then
    return (.error .encoderAborted, e, sink)
  else
    match ← e.pack value with
    | (.error cause, e) => return (.error cause, ← e.abort sink)
    | (.ok _, e) =>
      match e.handOver sink with
      | (.ok _, e, sink) => return (.ok (), e, sink)
      | (.error cause, e, sink) => return (.error cause, ← e.abort sink)

def extend (e : Encoder) (sink : ω) (values : List UInt64) :
    Logged (Except Error Unit × Encoder × ω) :=
  .each (fun (e, sink) value => e.push sink value) (e, sink) values

-- Ends the stream with a delimiter and hands over the rest. The sink is let go of even where that
-- fails; a stream that has lost its sink without being aborted has nothing left to do.
def finish (e : Encoder) (sink : ω) : Except Error Unit × Encoder × ω :=
  match e.phase with
  | .aborted => (.error .encoderAborted, e, sink)
  | .finished => (.ok (), e, sink)
  | .running =>
    let rest := (e.writer.put delimiter e.config.bits).bytes
    let e := { e with phase := .finished, writer := .empty }
    match ByteSink.writeAll sink rest with
    | (.error cause, sink) => (.error (.io cause), e, ByteSink.release sink)
    | (.ok _, sink) =>
      match ByteSink.flush sink with
      | (.error cause, sink) => (.error (.io cause), e, ByteSink.release sink)
      | (.ok _, sink) =>
        (.ok (), { e with bytesWritten := e.bytesWritten + rest.length }, ByteSink.release sink)

def drop (e : Encoder) (sink : ω) : Logged (Encoder × ω) := do
  if e.isFinished then
    return (e, sink)
  else
    let (finished, e, sink) := e.finish sink
    if let .error cause := finished then
      .emit (.streamNotFinished cause)
    return (e, sink)

end Encoder
end BitPacking.Stream
