import BitPacking.Header
import BitPacking.Proofs.Bits.Digits

namespace BitPacking

theorem ofNat_ofBigEndian_bigEndian (n : UInt32) :
    UInt32.ofNat (Bytes.ofBigEndian (Bytes.bigEndian 4 n.toNat)) = n := by
  rw [Bytes.ofBigEndian_bigEndian n.toNat_lt, UInt32.ofNat_toNat]

theorem toNat_ofNat_ofBigEndian {bytes : Bytes} (h : bytes.length = 4) :
    (UInt32.ofNat (Bytes.ofBigEndian bytes)).toNat = Bytes.ofBigEndian bytes := by
  have hl := Bytes.ofBigEndian_lt bytes
  rw [h] at hl
  exact UInt32.toNat_ofNat_of_lt' hl

theorem bigEndian_ofNat_ofBigEndian {bytes : Bytes} (h : bytes.length = 4) :
    Bytes.bigEndian 4 (UInt32.ofNat (Bytes.ofBigEndian bytes)).toNat = bytes := by
  have hb := Bytes.bigEndian_ofBigEndian bytes
  rwa [h, ← toNat_ofNat_ofBigEndian h] at hb

namespace Batch.Header

variable {h header : Header} {bytes : Bytes}

theorem map_validate_eq_ok_iff {h' : Header} :
    (h.validate.map fun _ => h) = .ok h' ↔ IsValidWidth h.bits.toNat ∧ h = h' := by
  by_cases hv : IsValidWidth h.bits.toNat <;> simp [validate, hv, Except.map]

theorem decode_encode_append (h : Header) (bytes : Bytes) :
    decode (h.encode ++ bytes) = h.validate.map fun _ => h := by
  have hl := ofNat_ofBigEndian_bigEndian h.sequenceLength
  have hc := ofNat_ofBigEndian_bigEndian h.sequenceCount
  simp only [Bytes.bigEndian] at hl hc
  simp only [encode, Bytes.bigEndian, List.cons_append, List.nil_append, decode, hl, hc]
  cases h.validate <;> rfl

theorem patchCount_encode_append (h : Header) (bytes : Bytes) (count : UInt32) :
    patchCount (h.encode ++ bytes) count =
      .ok ({ h with sequenceCount := count }.encode ++ bytes) := by
  have hs : ¬(h.encode ++ bytes).length < size := by simp
  rw [patchCount, if_neg hs]
  simp [encode, Bytes.bigEndian, countOffset, size]

theorem decode_of_lt (h : bytes.length < size) : decode bytes = .error .truncatedInput := by
  unfold decode
  split
  case h_1 => simp [size] at h; omega
  case h_2 => rfl

theorem exists_encode_append (h : size ≤ bytes.length) :
    ∃ header : Header, header.encode ++ bytes.drop size = bytes ∧ bytes[0]? = some header.bits := by
  match bytes, h with
  | b :: l₃ :: l₂ :: l₁ :: l₀ :: c₃ :: c₂ :: c₁ :: c₀ :: body, _ =>
    refine ⟨⟨b, .ofNat (Bytes.ofBigEndian [l₃, l₂, l₁, l₀]),
      .ofNat (Bytes.ofBigEndian [c₃, c₂, c₁, c₀])⟩, ?_, rfl⟩
    rw [encode, bigEndian_ofNat_ofBigEndian rfl, bigEndian_ofNat_ofBigEndian rfl]
    rfl

theorem le_of_decode (h : decode bytes = .ok header) : size ≤ bytes.length := by
  by_contra hlt
  rw [decode_of_lt (Nat.lt_of_not_le hlt)] at h
  cases h

-- Nothing of the bytes in front is lost in a header.
theorem exists_append_of_decode (h : decode bytes = .ok header) :
    ∃ body, bytes = header.encode ++ body := by
  have ⟨header', hb, _⟩ := exists_encode_append (le_of_decode h)
  rw [← hb, decode_encode_append] at h
  have ⟨_, he⟩ := map_validate_eq_ok_iff.1 h
  exact ⟨bytes.drop size, he ▸ hb.symm⟩

theorem encode_of_decode (h : decode bytes = .ok header) : header.encode = bytes.take size := by
  have ⟨body, hb⟩ := exists_append_of_decode h
  rw [hb, List.take_left' header.length_encode]

end Batch.Header

namespace Stream.Header

theorem decode_encode {h : Header} (hw : IsValidWidth h.bits.toNat) : decode h.encode = .ok h := by
  simp [encode, decode, hw]

end Stream.Header
end BitPacking
