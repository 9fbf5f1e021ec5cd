import BitPacking.Bytes

namespace BitPacking.Checksum.XxHash32

def prime₁ : UInt32 :=
  0x9E3779B1

def prime₂ : UInt32 :=
  0x85EBCA77

def prime₃ : UInt32 :=
  0xC2B2AE3D

def prime₄ : UInt32 :=
  0x27D4EB2F

def prime₅ : UInt32 :=
  0x165667B1

def rotate (x n : UInt32) : UInt32 :=
  (x <<< n) ||| (x >>> (32 - n))

def word (bytes : Bytes) : UInt32 :=
  .ofNat (Bytes.ofLittleEndian bytes)

structure Lanes where
  a : UInt32 := prime₁ + prime₂
  b : UInt32 := prime₂
  c : UInt32 := 0
  d : UInt32 := 0 - prime₁

namespace Lanes

def round (lane w : UInt32) : UInt32 :=
  rotate (lane + w * prime₂) 13 * prime₁

def combine (l : Lanes) : UInt32 :=
  rotate l.a 1 + rotate l.b 7 + rotate l.c 12 + rotate l.d 18

def absorb (l : Lanes) : Bytes → Lanes × Bytes
  | a₀ :: a₁ :: a₂ :: a₃ :: b₀ :: b₁ :: b₂ :: b₃ ::
      c₀ :: c₁ :: c₂ :: c₃ :: d₀ :: d₁ :: d₂ :: d₃ :: rest =>
    absorb {
      a := round l.a (word [a₀, a₁, a₂, a₃])
      b := round l.b (word [b₀, b₁, b₂, b₃])
      c := round l.c (word [c₀, c₁, c₂, c₃])
      d := round l.d (word [d₀, d₁, d₂, d₃])
    } rest
  | rest => (l, rest)

end Lanes

def absorbRest (h : UInt32) : Bytes → UInt32
  | a :: b :: c :: d :: rest =>
    absorbRest (rotate (h + word [a, b, c, d] * prime₃) 17 * prime₄) rest
  | rest => rest.foldl (fun h b => rotate (h + b.toUInt32 * prime₅) 11 * prime₁) h

def avalanche (h : UInt32) : UInt32 :=
  let h := (h ^^^ (h >>> 15)) * prime₂
  let h := (h ^^^ (h >>> 13)) * prime₃
  h ^^^ (h >>> 16)

def ofBytes (bytes : Bytes) : UInt32 :=
  let (lanes, rest) := Lanes.absorb {} bytes
  let start := if bytes.length < 16 then prime₅ else lanes.combine
  avalanche (absorbRest (start + .ofNat bytes.length) rest)

end BitPacking.Checksum.XxHash32
