import BitPacking.Bytes

namespace BitPacking.Checksum

structure Crc32c where
  register : UInt32 := 0xFFFFFFFF
deriving DecidableEq, Repr

namespace Crc32c

-- The coefficients of the Castagnoli polynomial below the leading one.
def polynomial : UInt32 :=
  0x82F63B78

def bitStep (register : UInt32) : UInt32 :=
  if register &&& 1 = 1 then (register >>> 1) ^^^ polynomial else register >>> 1

def bitSteps : Nat → UInt32 → UInt32
  | 0, register => register
  | n + 1, register => bitSteps n (bitStep register)

def table : Vector UInt32 256 :=
  .ofFn fun i => bitSteps 8 (.ofNat i)

def entry (b : UInt8) : UInt32 :=
  table.get ⟨b.toNat, b.toNat_lt⟩

def byteStep (register : UInt32) (b : UInt8) : UInt32 :=
  entry (register ^^^ b.toUInt32).toUInt8 ^^^ (register >>> 8)

def update (c : Crc32c) (bytes : Bytes) : Crc32c :=
  ⟨bytes.foldl byteStep c.register⟩

def value (c : Crc32c) : UInt32 :=
  ~~~ c.register

def ofBytes (bytes : Bytes) : UInt32 :=
  (update {} bytes).value

theorem update_append (c : Crc32c) (front rest : Bytes) :
    c.update (front ++ rest) = (c.update front).update rest := by
  simp [update]

end Crc32c
end BitPacking.Checksum
