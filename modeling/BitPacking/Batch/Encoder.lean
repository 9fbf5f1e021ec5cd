import BitPacking.Bits.Writer
import BitPacking.Config
import BitPacking.Header

namespace BitPacking.Batch

structure Encoder where
  config : Config
  writer : Bits.Writer
  sequenceCount : UInt32 := 0
  overflowWarnings : Nat := 0
  -- Whether a sequence was refused; nothing can be encoded or finished after that.
  aborted : Bool := false
deriving DecidableEq

namespace Encoder

def ofConfig (config : Config) : Encoder :=
  let header : Header := ⟨.ofNat config.bits, config.sequenceLength, 0⟩
  { config, writer := .ofBytes header.encode }

def new (maxValue : UInt64) (sequenceLength : UInt32) (containsZero : Bool) :
    Logged (Except Error Encoder) :=
  return (← Config.batch maxValue sequenceLength containsZero).map ofConfig

def encodedLength (e : Encoder) : Nat :=
  e.writer.length

def refuse (e : Encoder) (cause : Error) : Encoder :=
  { e with overflowWarnings := e.overflowWarnings + cause.overflows }

def reserve (e : Encoder) (value : UInt64) : Logged (Except Error Unit × Encoder) := do
  match ← e.config.remapNonDelimiter value with
  | .ok _ => return (.ok (), e)
  | .error cause => return (.error cause, e.refuse cause)

def pack (e : Encoder) (value : UInt64) : Logged (Except Error Unit × Encoder) := do
  match ← e.config.remap value with
  | .error cause => return (.error cause, e.refuse cause)
  | .ok stored =>
    match ← e.config.checkStored stored with
    | .error cause => return (.error cause, e.refuse cause)
    | .ok above =>
      let writer := e.writer.put stored e.config.bits
      return (.ok (), { e with writer, overflowWarnings := e.overflowWarnings + above.toNat })

def endSequence (e : Encoder) : Encoder :=
  let writer := if e.config.Delimited then e.writer.put delimiter e.config.bits else e.writer
  { e with writer, sequenceCount := e.sequenceCount + 1 }

def store (e : Encoder) (values : List UInt64) : Logged (Except Error Unit × Encoder) := do
  if e.sequenceCount.toNat + 1 < UInt32.size then
    match ← .each pack e values with
    | (.error cause, e) => return (.error cause, e)
    | (.ok _, e) => return (.ok (), e.endSequence)
  else
    return (.error .countOverflow, e)

-- Appends a sequence, and on failure leaves the encoder as far as it has come. Delimiters among the
-- values of a delimited sequence are looked for before anything is appended.
def append (e : Encoder) (values : List UInt64) : Logged (Except Error Unit × Encoder) := do
  let n := e.config.sequenceLength.toNat
  if ¬ e.config.Delimited ∧ values.length ≠ n then
    return (.error (.lengthMismatch n values.length), e)
  else if e.config.Delimited then
    match ← .each reserve e values with
    | (.error cause, e) => return (.error cause, e)
    | (.ok _, e) => e.store values
  else
    e.store values

def guarded (e : Encoder) (step : Encoder → Logged (Except Error Unit × Encoder)) :
    Logged (Except Error Unit × Encoder) := do
  if e.aborted then
    return (.error .encoderAborted, e)
  else
    match ← step e with
    | (.ok _, e) => return (.ok (), e)
    | (.error cause, e) => return (.error cause, { e with aborted := true })

def encode (e : Encoder) (values : List UInt64) : Logged (Except Error Unit × Encoder) :=
  e.guarded (·.append values)

-- Cuts a list into pieces of `n` members each; a shorter rest is left out.
def pieces (n : Nat) (values : List UInt64) : List (List UInt64) :=
  let piece := values.take n
  if n = 0 ∨ piece.length < n then [] else piece :: pieces n (values.drop n)
termination_by values.length
decreasing_by simp [piece] at *; omega

-- Encodes bytes as values: one delimited sequence, or as many of the declared length as they make
-- up.
def encodeBytes (e : Encoder) (bytes : Bytes) : Logged (Except Error Unit × Encoder) :=
  let values := bytes.map (·.toUInt64)
  let n := e.config.sequenceLength.toNat
  e.guarded fun e =>
    if e.config.Delimited then
      e.append values
    else if bytes.length % n ≠ 0 then
      return (.error (.lengthMismatch n bytes.length), e)
    else
      .each append e (pieces n values)

def finish (e : Encoder) : Except Error Bytes :=
  if e.aborted then .error .encoderAborted else Header.patchCount e.writer.bytes e.sequenceCount

end Encoder
end BitPacking.Batch
