import BitPacking.Checksum.XxHash32

namespace BitPacking.Lz4.Frame

open Checksum

def magic : Bytes :=
  [0x04, 0x22, 0x4D, 0x18]

def legacyMagic : Bytes :=
  [0x02, 0x21, 0x4C, 0x18]

structure Descriptor where
  independent : Bool
  blockChecksums : Bool
  contentSize : Option Nat
  contentChecksum : Bool
  blockLimit : Nat
deriving DecidableEq, Repr

namespace Descriptor

def checksum (descriptor : Bytes) : UInt8 :=
  (XxHash32.ofBytes descriptor >>> 8).toUInt8

def limitOfCode? : Nat → Option Nat
  | 4 => some (64 * 1024)
  | 5 => some (256 * 1024)
  | 6 => some (1024 * 1024)
  | 7 => some (4 * 1024 * 1024)
  | _ => none

-- The second bit of the first byte and all bits of the second byte but those of the block limit are
-- reserved and have to be zero. The first bit announces a dictionary, which is nowhere to be had.
def decode : Bytes → Option (Descriptor × Bytes)
  | flags :: sizes :: rest => do
    let flag (i : Nat) := flags.toNat.testBit i
    let (contentSize, rest) ← if flag 3 then Bytes.cut? 8 rest else some ([], rest)
    let blockLimit ← limitOfCode? (sizes.toNat / 16)
    match rest with
    | [] => none
    | check :: rest =>
      if flags.toNat / 64 = 1 ∧ ¬ flag 1 ∧ ¬ flag 0 ∧ sizes.toNat % 16 = 0 ∧
          check = checksum (flags :: sizes :: contentSize) then
        let d : Descriptor := {
          independent := flag 5
          blockChecksums := flag 4
          contentSize := if flag 3 then some (Bytes.ofLittleEndian contentSize) else none
          contentChecksum := flag 2
          blockLimit
        }
        some (d, rest)
      else
        none
  | _ => none

def legacy : Descriptor where
  independent := true
  blockChecksums := false
  contentSize := none
  contentChecksum := false
  blockLimit := 8 * 1024 * 1024

end Descriptor

def storedBit : Nat :=
  0x80000000

def endMark : Bytes :=
  Bytes.littleEndian 4 0

end BitPacking.Lz4.Frame
