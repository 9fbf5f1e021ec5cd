import BitPacking.Lz4.Block
import BitPacking.Lz4.Frame.Basic

namespace BitPacking.Lz4.Frame

def Descriptor.standard : Bytes :=
  [0x60, 0x40]

def header : Bytes :=
  magic ++ Descriptor.standard ++ [Descriptor.checksum Descriptor.standard]

def blockLength : Nat :=
  64 * 1024

def encodeBlock (data : Bytes) : Bytes :=
  match Block.compress? data with
  | some block => Bytes.littleEndian 4 block.length ++ block
  | none => Bytes.littleEndian 4 (storedBit + data.length) ++ data

-- A frame that is being written. Its header is put out before the first block, and a block once
-- there is more than it holds.
structure Writer where
  opened : Bool := false
  pending : Bytes := []
deriving DecidableEq, Repr

namespace Writer

def opening (w : Writer) : Bytes :=
  if w.opened then [] else header

def cutBlocks (data : Bytes) : Bytes × Bytes :=
  if data.length ≤ blockLength then
    ([], data)
  else
    let (blocks, rest) := cutBlocks (data.drop blockLength)
    (encodeBlock (data.take blockLength) ++ blocks, rest)
termination_by data.length
decreasing_by simp [blockLength] at *; omega

def write (w : Writer) (data : Bytes) : Bytes × Writer :=
  if data.isEmpty then
    ([], w)
  else
    let (blocks, pending) := cutBlocks (w.pending ++ data)
    (w.opening ++ blocks, { opened := true, pending })

def finish (w : Writer) : Bytes :=
  w.opening ++ (if w.pending.isEmpty then [] else encodeBlock w.pending) ++ endMark

end Writer

end BitPacking.Lz4.Frame
