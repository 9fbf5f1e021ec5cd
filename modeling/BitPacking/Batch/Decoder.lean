import BitPacking.Bits.Reader
import BitPacking.Config
import BitPacking.Header

namespace BitPacking.Batch

structure Decoder where
  reader : Bits.Reader
  header : Header
  isValidWidth : IsValidWidth header.bits.toNat
  containsZero : Bool
  remaining : Nat

namespace Decoder

def ofSource (source : Source) (containsZero : Bool) : Except Error Decoder × Source :=
  let ((bytes, failure), reader) := (Bits.Reader.ofSource source).readBytes Header.size
  let decoder := match failure with
    | some e => .error (.io e)
    | none =>
      match h : Header.decode bytes with
      | .error e => .error e
      | .ok header => .ok {
          reader, header, containsZero
          isValidWidth := Header.isValidWidth_of_decode h
          remaining := header.sequenceCount.toNat
        }
  (decoder, reader.source)

def readRaw (d : Decoder) : Except Error UInt64 × Decoder :=
  match d.reader.readBits d.header.bits.toNat with
  | (.ok (some raw), reader) => (.ok raw, { d with reader })
  | (.ok none, reader) => (.error .truncatedInput, { d with reader })
  | (.error e, reader) => (.error (.io e), { d with reader })

theorem readRaw_available_lt {d d' : Decoder} {raw : UInt64} (h : d.readRaw = (.ok raw, d')) :
    d'.reader.available < d.reader.available := by
  simp only [readRaw] at h
  split at h <;> cases h
  next hr =>
    have := Bits.Reader.readBits_available hr
    have := d.isValidWidth.1
    simp at *; omega

def readRun (d : Decoder) (past : List UInt64) : Except Error (List UInt64) × Decoder :=
  match _h : d.readRaw with
  | (.ok raw, d) =>
    if raw = delimiter then (.ok past.reverse, d) else readRun d (unmap d.containsZero raw :: past)
  | (.error e, d) => (.error e, d)
termination_by d.reader.available
decreasing_by exact readRaw_available_lt ‹_›

def readRow (d : Decoder) (n : Nat) (past : List UInt64) : Except Error (List UInt64) × Decoder :=
  match n with
  | 0 => (.ok past.reverse, d)
  | n + 1 =>
    match d.readRaw with
    | (.ok raw, d) => readRow d n (unmap d.containsZero raw :: past)
    | (.error e, d) => (.error e, d)

def readSequence (d : Decoder) : Except Error (List UInt64) × Decoder :=
  if d.header.Delimited then d.readRun [] else d.readRow d.header.sequenceLength.toNat []

def next (d : Decoder) : Except Error (Option (List UInt64)) × Decoder :=
  if d.remaining = 0 then
    (.ok none, d)
  else
    match d.readSequence with
    | (.ok values, d) => (.ok (some values), { d with remaining := d.remaining - 1 })
    | (.error e, d) => (.error e, d)

-- Like `next`, but a failure ends the batch.
def nextOrStop (d : Decoder) : Except Error (Option (List UInt64)) × Decoder :=
  match d.next with
  | (.error e, d) => (.error e, { d with remaining := 0 })
  | r => r

@[simp]
theorem remaining_readRaw (d : Decoder) : d.readRaw.2.remaining = d.remaining := by
  simp only [readRaw]
  split <;> rfl

@[simp]
theorem remaining_readRun (d : Decoder) (past : List UInt64) :
    (d.readRun past).2.remaining = d.remaining := by
  fun_induction readRun d past with
  | case1 d _ d₁ h => simpa [h] using remaining_readRaw d
  | case2 d _ raw d₁ h _ ih => rw [ih]; simpa [h] using remaining_readRaw d
  | case3 d _ e d₁ h => simpa [h] using remaining_readRaw d

@[simp]
theorem remaining_readRow (d : Decoder) (n : Nat) (past : List UInt64) :
    (d.readRow n past).2.remaining = d.remaining := by
  fun_induction readRow d n past with
  | case1 => rfl
  | case2 d _ _ raw d₁ h ih => rw [ih]; simpa [h] using remaining_readRaw d
  | case3 d _ _ e d₁ h => simpa [h] using remaining_readRaw d

@[simp]
theorem remaining_readSequence (d : Decoder) : d.readSequence.2.remaining = d.remaining := by
  unfold readSequence
  split <;> simp

theorem remaining_next {d d' : Decoder} {values : List UInt64}
    (h : d.next = (.ok (some values), d')) : d'.remaining + 1 = d.remaining := by
  simp only [next] at h
  split at h
  · cases h
  next hr =>
    split at h <;> cases h
    next hs =>
      have := remaining_readSequence d
      simp [hs] at *; omega

def readAll (d : Decoder) (past : List (List UInt64)) :
    Except Error (List (List UInt64)) × Decoder :=
  match _h : d.next with
  | (.ok (some values), d) => readAll d (values :: past)
  | (.ok none, d) => (.ok past.reverse, d)
  | (.error e, d) => (.error e, d)
termination_by d.remaining
decreasing_by have := remaining_next ‹_›; omega

def all (d : Decoder) : Except Error (List (List UInt64)) × Decoder :=
  d.readAll []

def bytesOfValues : List UInt64 → Except Error Bytes
  | [] => .ok []
  | v :: vs =>
    if v.toNat < UInt8.size then do return v.toUInt8 :: (← bytesOfValues vs)
    else .error (.valueTooLarge v 8)

def readAllBytes (d : Decoder) (past : List Bytes) : Except Error Bytes × Decoder :=
  match _h : d.next with
  | (.ok (some values), d) =>
    match bytesOfValues values with
    | .ok bytes => readAllBytes d (bytes :: past)
    | .error e => (.error e, d)
  | (.ok none, d) => (.ok past.reverse.flatten, d)
  | (.error e, d) => (.error e, d)
termination_by d.remaining
decreasing_by have := remaining_next ‹_›; omega

def bytes (d : Decoder) : Except Error Bytes × Decoder :=
  d.readAllBytes []

end Decoder
end BitPacking.Batch
