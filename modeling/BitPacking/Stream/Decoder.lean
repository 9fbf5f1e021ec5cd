import BitPacking.Bits.Reader
import BitPacking.Config
import BitPacking.Header

namespace BitPacking.Stream

structure Decoder where
  reader : Bits.Reader
  header : Header
  isValidWidth : IsValidWidth header.bits.toNat
  containsZero : Bool

-- A counter that goes with some values.
class Counted (values : List UInt64) where
  count : Nat
deriving DecidableEq, Repr

-- Without a counter of its own, a list is counted right.
instance (values : List UInt64) : Counted values where
  count := values.length

-- What reading a stream came to: the values that were delivered, also before a failure, and the
-- counter that went up with each of them.
structure Decoded where
  values : List UInt64
  failure : Option Error
  [delivered : Counted values]
deriving DecidableEq, Repr

def Decoded.count (d : Decoded) : Except Error Nat :=
  match d.failure with
  | none => .ok d.delivered.count
  | some e => .error e

def Decoded.toList (d : Decoded) : Except Error (List UInt64) :=
  match d.failure with
  | none => .ok d.values
  | some e => .error e

structure Decoder.Stop where
  decoder : Decoder
  past : List UInt64
  delivered : Nat
  outcome : Except IoError (Option UInt64)
  source : Source

def Decoder.Stop.decoded (s : Stop) : Decoded where
  values := s.past.reverse
  failure :=
    match s.outcome with
    | .ok (some _) => none
    | .ok none => some .missingEndMarker
    | .error e => some (.io e)
  delivered := ⟨s.delivered⟩

namespace Decoder

def ofSource (source : Source) (containsZero : Bool) : Except Error Decoder × Source :=
  let ((bytes, failure), reader) := (Bits.Reader.ofSource source).readBytes Header.size
  let decoder := match failure with
    | some e => .error (.io e)
    | none =>
      match h : Header.decode bytes with
      | .error e => .error e
      | .ok header => .ok {
          reader, header, containsZero
          isValidWidth := Header.isValidWidth_of_decode h
        }
  (decoder, reader.source)

def readOn (d : Decoder) (past : List UInt64) (delivered : Nat) : Stop :=
  match _h : d.reader.readBits d.header.bits.toNat with
  | (.ok (some raw), reader) =>
    if raw = delimiter then
      ⟨d, past, delivered, .ok (some raw), reader.source⟩
    else
      readOn { d with reader } (unmap d.containsZero raw :: past) (delivered + 1)
  | (outcome, reader) => ⟨d, past, delivered, outcome, reader.source⟩
termination_by d.reader.available
decreasing_by
  have := Bits.Reader.readBits_available ‹_›
  have := d.isValidWidth.1
  simp at *; omega

def decode (d : Decoder) : Decoded × Source :=
  let stop := d.readOn [] 0
  (stop.decoded, stop.source)

end Decoder

def decode (source : Source) (containsZero : Bool) : Decoded × Source :=
  match Decoder.ofSource source containsZero with
  | (.ok d, _) => d.decode
  | (.error e, source) => (⟨[], some e⟩, source)

end BitPacking.Stream
