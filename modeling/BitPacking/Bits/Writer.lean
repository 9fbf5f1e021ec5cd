import BitPacking.Bytes

namespace BitPacking.Bits

-- The whole bytes written so far, and the bits after them that do not fill a byte yet.
structure Writer where
  whole : Array UInt8 := #[]
  tail : Nat := 0
  used : Nat := 0
  used_lt : used < 8 := by decide
  tail_lt : tail < 1 <<< used := by decide
deriving DecidableEq

namespace Writer

def empty : Writer :=
  {}

def ofBytes (bytes : Bytes) : Writer :=
  { whole := bytes.toArray }

def put (w : Writer) (element : UInt64) (width : Nat) : Writer :=
  let bits := (w.tail <<< width) + element.toNat % (1 <<< width)
  let length := w.used + width
  { whole := w.whole ++ (Bytes.bigEndian (length / 8) (bits >>> (length % 8))).toArray
    tail := bits % (1 <<< (length % 8))
    used := length % 8
    used_lt := Nat.mod_lt _ (by decide)
    tail_lt := Bytes.mod_one_shiftLeft_lt .. }

def freeBits (w : Writer) : Nat :=
  (8 - w.used) % 8

def completeLength (w : Writer) : Nat :=
  w.whole.size

def length (w : Writer) : Nat :=
  w.whole.size + if w.used = 0 then 0 else 1

def bytes (w : Writer) : Bytes :=
  w.whole.toList ++ if w.used = 0 then [] else [UInt8.ofNat (w.tail <<< w.freeBits)]

def takeComplete (w : Writer) : Bytes × Writer :=
  (w.whole.toList, { w with whole := #[] })

@[simp]
theorem length_bytes (w : Writer) : w.bytes.length = w.length := by
  simp only [bytes, length]
  split <;> simp

theorem put_length (w : Writer) (element : UInt64) (width : Nat) :
    8 * (w.put element width).whole.size + (w.put element width).used =
      8 * w.whole.size + w.used + width := by
  simp [put]
  omega

end Writer
end BitPacking.Bits
