import BitPacking.Proofs.Header

namespace BitPacking

namespace Bytes

-- Copies bytes to the places from `start` on and before `stop`.
def copy? (buffer : Bytes) (start stop : Nat) (bytes : Bytes) : Option Bytes :=
  if start ≤ stop ∧ stop ≤ buffer.length ∧ bytes.length = stop - start then
    some (buffer.take start ++ bytes ++ buffer.drop stop)
  else none

def word? (buffer : Bytes) (i : Nat) : Option UInt32 := do
  return .ofNat (ofBigEndian
    [← buffer[i]?, ← buffer[i + 1]?, ← buffer[i + 2]?, ← buffer[i + 3]?])

theorem copy?_append (xs zs : Bytes) {ys bytes : Bytes} (h : bytes.length = ys.length) :
    (xs ++ (ys ++ zs)).copy? xs.length (xs.length + ys.length) bytes =
      some (xs ++ (bytes ++ zs)) := by
  have hd : (xs ++ (ys ++ zs)).drop (xs.length + ys.length) = zs := by
    rw [← List.drop_drop, List.drop_left, List.drop_left]
  rw [copy?, if_pos, List.take_left, hd, List.append_assoc]
  simp
  omega

theorem word?_append (xs zs : Bytes) {ys : Bytes} (h : ys.length = 4) :
    (xs ++ (ys ++ zs)).word? xs.length = some (.ofNat (ofBigEndian ys)) := by
  match ys, h with
  | [b₃, b₂, b₁, b₀], _ => simp [word?]

end Bytes

namespace Batch.Header

def write? (h : Header) : Option Bytes := do
  let buffer := List.replicate size 0
  let buffer ← Bytes.copy? buffer 0 1 [h.bits]
  let buffer ← buffer.copy? 1 countOffset (Bytes.bigEndian 4 h.sequenceLength.toNat)
  buffer.copy? countOffset size (Bytes.bigEndian 4 h.sequenceCount.toNat)

def read? (buffer : Bytes) : Option (Except Error Header) :=
  if buffer.length < size then
    some (.error .truncatedInput)
  else do
    let h : Header := {
      bits := ← buffer[0]?
      sequenceLength := ← buffer.word? 1
      sequenceCount := ← buffer.word? countOffset
    }
    return h.validate.map fun _ => h

-- Overwrites the count. What comes of it, and the buffer afterwards.
def patch? (buffer : Bytes) (count : UInt32) : Option (Except Error Unit × Bytes) :=
  if buffer.length < size then
    some (.error .truncatedInput, buffer)
  else do
    return (.ok (), ← buffer.copy? countOffset size (Bytes.bigEndian 4 count.toNat))

theorem write?_eq (h : Header) : h.write? = some h.encode := by
  simp [write?, Bytes.copy?, encode, size, countOffset, Bytes.bigEndian]

theorem read?_encode_append (h : Header) (bytes : Bytes) :
    read? (h.encode ++ bytes) = some (h.validate.map fun _ => h) := by
  have hs : ¬(h.encode ++ bytes).length < size := by simp
  have hb : (h.encode ++ bytes)[0]? = some h.bits := rfl
  have hl : (h.encode ++ bytes).word? 1 = some h.sequenceLength := by
    have hw := Bytes.word?_append [h.bits] (Bytes.bigEndian 4 h.sequenceCount.toNat ++ bytes)
      (Bytes.length_bigEndian 4 h.sequenceLength.toNat)
    rw [ofNat_ofBigEndian_bigEndian] at hw
    simpa [encode] using hw
  have hc : (h.encode ++ bytes).word? countOffset = some h.sequenceCount := by
    have hw := Bytes.word?_append (h.bits :: Bytes.bigEndian 4 h.sequenceLength.toNat) bytes
      (Bytes.length_bigEndian 4 h.sequenceCount.toNat)
    rw [ofNat_ofBigEndian_bigEndian] at hw
    simpa [encode, countOffset] using hw
  rw [read?, if_neg hs, hb, hl, hc]
  rfl

theorem patch?_encode_append (h : Header) (bytes : Bytes) (count : UInt32) :
    patch? (h.encode ++ bytes) count =
      some (.ok (), { h with sequenceCount := count }.encode ++ bytes) := by
  have hs : ¬(h.encode ++ bytes).length < size := by simp
  have hc : (h.encode ++ bytes).copy? countOffset size (Bytes.bigEndian 4 count.toNat) =
      some ({ h with sequenceCount := count }.encode ++ bytes) := by
    have hw := Bytes.copy?_append (h.bits :: Bytes.bigEndian 4 h.sequenceLength.toNat) bytes
      ((Bytes.length_bigEndian 4 count.toNat).trans
        (Bytes.length_bigEndian 4 h.sequenceCount.toNat).symm)
    simpa [encode, countOffset, size] using hw
  rw [patch?, if_neg hs, hc]
  rfl

theorem read?_eq (buffer : Bytes) : read? buffer = some (decode buffer) := by
  by_cases h : buffer.length < size
  case pos => rw [read?, if_pos h, decode_of_lt h]
  case neg =>
    have ⟨header, hb, _⟩ := exists_encode_append (Nat.le_of_not_lt h)
    rw [← hb, read?_encode_append, decode_encode_append]

theorem patchCount_of_lt {buffer : Bytes} (h : buffer.length < size) (count : UInt32) :
    patchCount buffer count = .error .truncatedInput :=
  if_pos h

theorem patch?_of_lt {buffer : Bytes} (h : buffer.length < size) (count : UInt32) :
    patch? buffer count = some (.error .truncatedInput, buffer) :=
  if_pos h

theorem decode_encode (h : Header) : decode h.encode = h.validate.map fun _ => h := by
  rw [← List.append_nil h.encode, decode_encode_append]

theorem exists_decode_eq_ok_iff {bytes : Bytes} : (∃ header, decode bytes = .ok header) ↔
    size ≤ bytes.length ∧ ∃ b, bytes[0]? = some b ∧ IsValidWidth b.toNat := by
  constructor
  case mp =>
    intro ⟨header, h⟩
    have ⟨body, hb⟩ := exists_append_of_decode h
    exact ⟨le_of_decode h, header.bits, hb ▸ rfl, isValidWidth_of_decode h⟩
  case mpr =>
    intro ⟨hl, b, hb, hv⟩
    have ⟨header, he, hh⟩ := exists_encode_append hl
    cases hb.symm.trans hh
    exact ⟨header, by rw [← he, decode_encode_append, map_validate_eq_ok_iff.2 ⟨hv, rfl⟩]⟩

-- What holds of a header, of any bytes, and of a count.
structure Codec (h : Header) (bytes : Bytes) (count : UInt32) : Prop where
  back     : decode h.encode =
    if 1 ≤ h.bits.toNat ∧ h.bits.toNat ≤ 64 then .ok h else .error (.invalidHeader h.bits)
  accepted : (∃ header, decode bytes = .ok header) ↔
    9 ≤ bytes.length ∧ ∃ b, bytes[0]? = some b ∧ 1 ≤ b.toNat ∧ b.toNat ≤ 64
  forth    : ∀ header, decode bytes = .ok header → header.encode = bytes.take 9
  patched  :
    let after := { h with sequenceCount := count }.encode ++ bytes
    patchCount (h.encode ++ bytes) count = .ok after ∧
      patch? (h.encode ++ bytes) count = some (.ok (), after)
  refused  : bytes.length < 9 → patchCount bytes count = .error .truncatedInput ∧
    patch? bytes count = some (.error .truncatedInput, bytes)
  inBuffer : h.write? = some h.encode ∧ read? bytes = some (decode bytes)

theorem codec (h : Header) (bytes : Bytes) (count : UInt32) : Codec h bytes count where
  back     := by
    rw [decode_encode, validate]
    by_cases hv : IsValidWidth h.bits.toNat
    case pos => rw [if_pos hv]; exact (if_pos hv).symm
    case neg => rw [if_neg hv]; exact (if_neg hv).symm
  accepted := exists_decode_eq_ok_iff
  forth    := fun _ hd => encode_of_decode hd
  patched  := ⟨patchCount_encode_append h bytes count, patch?_encode_append h bytes count⟩
  refused  := fun hl => ⟨patchCount_of_lt hl count, patch?_of_lt hl count⟩
  inBuffer := ⟨write?_eq h, read?_eq bytes⟩

-- Fields whose bytes all differ, in a buffer with one byte more, and a buffer that is short of one.
theorem codec_wide :
    let h : Header := ⟨64, 0x01020304, 0⟩
    let count := 0xFBFCFDFE
    let short := h.encode.take 8
    decode h.encode = .ok h ∧ h.encode = [64, 1, 2, 3, 4, 0, 0, 0, 0] ∧
      patch? (h.encode ++ [0xAA]) count =
        some (.ok (), [64, 1, 2, 3, 4, 0xFB, 0xFC, 0xFD, 0xFE, 0xAA]) ∧
      short.length < 9 ∧ patch? short count = some (.error .truncatedInput, short) := by
  intro h count short
  have hs : short.length < 9 := by decide
  have hp := (codec h [0xAA] count).patched.right
  have he : { h with sequenceCount := count }.encode ++ [0xAA] =
      [64, 1, 2, 3, 4, 0xFB, 0xFC, 0xFD, 0xFE, 0xAA] := by decide
  have hx := ((codec h short count).refused hs).right
  exact ⟨(codec h [] count).back, by decide, he ▸ hp, hs, hx⟩

end Batch.Header
end BitPacking
