import BitPacking.Width

namespace BitPacking

namespace Batch

structure Header where
  bits : UInt8
  -- Zero stands for sequences that end with a delimiter.
  sequenceLength : UInt32
  sequenceCount : UInt32
deriving DecidableEq, Repr

namespace Header

def size : Nat :=
  9

def countOffset : Nat :=
  5

def Delimited (h : Header) : Prop :=
  h.sequenceLength = 0

instance (h : Header) : Decidable h.Delimited :=
  inferInstanceAs (Decidable (_ = _))

def validate (h : Header) : Except Error Unit :=
  if IsValidWidth h.bits.toNat then .ok () else .error (.invalidHeader h.bits)

def encode (h : Header) : Bytes :=
  h.bits :: Bytes.bigEndian 4 h.sequenceLength.toNat ++ Bytes.bigEndian 4 h.sequenceCount.toNat

def decode : Bytes → Except Error Header
  | b :: l₃ :: l₂ :: l₁ :: l₀ :: c₃ :: c₂ :: c₁ :: c₀ :: _ => do
    let h : Header := {
      bits := b
      sequenceLength := .ofNat (Bytes.ofBigEndian [l₃, l₂, l₁, l₀])
      sequenceCount := .ofNat (Bytes.ofBigEndian [c₃, c₂, c₁, c₀])
    }
    h.validate
    return h
  | _ => .error .truncatedInput

def patchCount (bytes : Bytes) (count : UInt32) : Except Error Bytes :=
  if bytes.length < size then
    .error .truncatedInput
  else
    .ok (bytes.take countOffset ++ Bytes.bigEndian 4 count.toNat ++ bytes.drop size)

theorem validate_eq_ok_iff {h : Header} : h.validate = .ok () ↔ IsValidWidth h.bits.toNat := by
  unfold validate
  split <;> simp_all

theorem isValidWidth_of_decode {bytes : Bytes} {h : Header} (hd : decode bytes = .ok h) :
    IsValidWidth h.bits.toNat := by
  unfold decode at hd
  split at hd
  · simp only [bind, Except.bind] at hd
    split at hd
    · cases hd
    · next hv => cases hd; exact validate_eq_ok_iff.1 hv
  · cases hd

@[simp]
theorem length_encode (h : Header) : h.encode.length = size := by
  simp [encode, size]

end Header
end Batch

namespace Stream

structure Header where
  bits : UInt8
deriving DecidableEq, Repr

namespace Header

def size : Nat :=
  1

def encode (h : Header) : Bytes :=
  [h.bits]

def decode : Bytes → Except Error Header
  | [] => .error .truncatedInput
  | b :: _ => if IsValidWidth b.toNat then .ok ⟨b⟩ else .error (.invalidHeader b)

theorem isValidWidth_of_decode {bytes : Bytes} {h : Header} (hd : decode bytes = .ok h) :
    IsValidWidth h.bits.toNat := by
  unfold decode at hd
  split at hd
  · cases hd
  · split at hd
    · next hv => cases hd; exact hv
    · cases hd

end Header
end Stream

end BitPacking
