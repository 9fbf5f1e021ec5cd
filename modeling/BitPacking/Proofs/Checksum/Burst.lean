import BitPacking.Archive.Directory
import BitPacking.Archive.Memory
import BitPacking.Proofs.Archive.Seal
import BitPacking.Proofs.Checksum.Crc32c
import BitPacking.Proofs.Lz4.Frame

namespace BitPacking

namespace Checksum

-- Where two strings of bits differ, if anywhere, is within 32 bits in a row.
def Burst (xs ys : List Bool) : Prop :=
  ∃ start, ∀ i, xs[i]? ≠ ys[i]? → start ≤ i ∧ i < start + 32

theorem Burst.exists_append {xs ys : List Bool} (h : Burst xs ys) (hl : xs.length = ys.length) :
    ∃ front mid mid' back, xs = front ++ (mid ++ back) ∧ ys = front ++ (mid' ++ back) ∧
      mid.length = mid'.length ∧ mid.length ≤ 32 := by
  obtain ⟨start, hb⟩ := h
  have hfront : xs.take start = ys.take start := by
    refine List.ext_getElem? fun i => ?_
    rw [List.getElem?_take, List.getElem?_take]
    split
    case isTrue hi => exact by_contra fun hx => absurd (hb i hx).left (by omega)
    case isFalse   => rfl
  have hback : xs.drop (start + 32) = ys.drop (start + 32) := by
    refine List.ext_getElem? fun i => ?_
    rw [List.getElem?_drop, List.getElem?_drop]
    exact by_contra fun hx => absurd (hb _ hx).right (by omega)
  have hsplit (zs : List Bool) :
      zs = zs.take start ++ ((zs.drop start).take 32 ++ zs.drop (start + 32)) := by
    rw [← List.drop_drop, List.take_append_drop, List.take_append_drop]
  refine ⟨xs.take start, (xs.drop start).take 32, (ys.drop start).take 32, xs.drop (start + 32),
    hsplit xs, ?_, ?_, ?_⟩
  · rw [hfront, hback]
    exact hsplit ys
  · simp [hl]
  · exact List.length_take_le ..

namespace Crc32c

theorem eq_zero_of_bitStep {x : UInt32} (h : bitStep x = 0) : x = 0 := by
  have hhalf : (x >>> 1).toNat = x.toNat / 2 := Nat.shiftRight_eq_div_pow ..
  rw [bitStep_eq, UInt32.xor_eq_zero_iff, ← UInt32.toNat_inj, hhalf] at h
  rw [← UInt32.toNat_inj]
  split at h
  case isTrue  =>
    -- The polynomial has its highest bit set, which is clear behind the shift.
    have hp : polynomial.toNat = 0x82F63B78 := by decide
    have := x.toNat_lt
    omega
  case isFalse =>
    have h : x.toNat / 2 = 0 := h
    have hz : (0 : UInt32).toNat = 0 := rfl
    omega

theorem bitStep_injective : Function.Injective bitStep := by
  intro x y h
  have hz : bitStep (x ^^^ y) = 0 := by rw [bitStep_xor, h, UInt32.xor_self]
  exact UInt32.xor_eq_zero_iff.1 (eq_zero_of_bitStep hz)

theorem bitSteps_injective (k : Nat) : Function.Injective (bitSteps k) := by
  induction k
  case zero      => exact fun _ _ h => h
  case succ k hi => exact hi.comp bitStep_injective

theorem foldl_takeBit_injective (bits : List Bool) :
    Function.Injective fun register => bits.foldl (takeBit polynomial) register := by
  induction bits
  case nil          => exact fun _ _ h => h
  case cons d ds hi =>
    have hd : Function.Injective fun register => takeBit polynomial register d :=
      fun _ _ h => UInt32.xor_left_inj d.toUInt32 |>.1 (bitStep_injective h)
    exact hi.comp hd

theorem foldl_takeBit_inj {xs ys : List Bool} {register : UInt32} (hl : xs.length = ys.length)
    (h32 : xs.length ≤ 32)
    (h : xs.foldl (takeBit polynomial) register = ys.foldl (takeBit polynomial) register) :
    xs = ys := by
  have hlt {zs : List Bool} (hz : zs.length ≤ 32) : Bits.number zs.reverse < 2 ^ 32 := by
    refine Nat.lt_of_lt_of_le (Bits.number_lt zs.reverse) ?_
    exact Nat.pow_le_pow_right (by decide) (by rwa [List.length_reverse])
  rw [foldl_takeBit h32, foldl_takeBit (hl ▸ h32), ← hl] at h
  have hn := UInt32.xor_right_inj register |>.1 (bitSteps_injective _ h)
  rw [← UInt32.toNat_inj, UInt32.toNat_ofNat_of_lt' (hlt h32),
    UInt32.toNat_ofNat_of_lt' (hlt (hl ▸ h32))] at hn
  rw [← List.reverse_inj, ← Bits.digits_number xs.reverse, hn, List.length_reverse, hl,
    ← List.length_reverse, Bits.digits_number]

theorem remainder_ne_of_burst {xs ys : List Bool} (hl : xs.length = ys.length) (hne : xs ≠ ys)
    (hb : Burst xs ys) : remainder polynomial xs ≠ remainder polynomial ys := by
  obtain ⟨front, mid, mid', back, rfl, rfl, hmid, h32⟩ := hb.exists_append hl
  intro h
  rw [remainder, remainder, List.foldl_append, List.foldl_append, List.foldl_append,
    List.foldl_append] at h
  have := foldl_takeBit_inj hmid h32 (foldl_takeBit_injective back h)
  exact hne (by rw [this])

theorem ofBytes_ne_of_burst {xs ys : Bytes} (hl : xs.length = ys.length) (hne : xs ≠ ys)
    (hb : Burst (Bytes.bits xs) (Bytes.bits ys)) : ofBytes xs ≠ ofBytes ys := by
  rw [ofBytes_eq, ofBytes_eq, Ne, UInt32.not_inj]
  refine remainder_ne_of_burst ?_ (mt (@Bytes.bits_injective xs ys) hne) hb
  rw [Bytes.length_bits, Bytes.length_bits, hl]

end Crc32c
end Checksum

namespace Archive

open Checksum

namespace Seal

variable [Compression]

-- Sealed content of which all but the trailer was changed, so that it gives other content.
def Garbled (content other sealed : Bytes) : Prop :=
  ∃ pieces payload garbled trailer, pieces.flatten = content ∧
    ofPieces pieces = payload ++ trailer ∧ trailer.length = 4 ∧
    Compression.decompress garbled = some other ∧ sealed = garbled ++ trailer

theorem Garbled.contentOf {content other sealed : Bytes} (h : Garbled content other sealed)
    (hc : Crc32c.ofBytes other ≠ Crc32c.ofBytes content) (name : String) :
    contentOf name sealed = .error (.checksumMismatch name) := by
  obtain ⟨pieces, payload, garbled, trailer, hp, hs, hl, hd, rfl⟩ := h
  rw [ofPieces_eq, hp] at hs
  have ⟨_, ht⟩ := List.append_inj' hs (by simp [hl])
  have hcheck : Bytes.ofLittleEndian trailer = (Crc32c.ofBytes content).toNat := by
    rw [← ht, Bytes.ofLittleEndian_littleEndian (UInt32.toNat_lt _)]
  rw [contentOf_append hl hd, hcheck, if_neg (mt UInt32.toNat_inj.1 hc)]

end Seal

-- A burst changes the checksum. So an entry whose content it got into is not read, in an archive of
-- either kind, as long as the trailer is as it was.
theorem checksumMismatch_of_burst [Compression] {xs ys : Bytes} (hl : xs.length = ys.length)
    (hne : xs ≠ ys) (hb : Burst (Bytes.bits xs) (Bytes.bits ys)) :
    Crc32c.ofBytes xs ≠ Crc32c.ofBytes ys ∧ ∀ name sealed, Seal.Garbled xs ys sealed →
      Seal.contentOf name sealed = .error (.checksumMismatch name) ∧
      (∀ m : Memory, m.entries.get? name = some sealed →
        m.read name = .error (.checksumMismatch name)) ∧
      ∀ (d : Directory) entry, Directory.entryPath name = .ok entry →
        d.files.read entry = .ok sealed → d.read name = .error (.checksumMismatch name) := by
  have hc := Crc32c.ofBytes_ne_of_burst hl hne hb
  refine ⟨hc, fun name sealed hs => ?_⟩
  have hx := hs.contentOf (Ne.symm hc) name
  refine ⟨hx, fun m hm => ?_, fun d entry he hd => ?_⟩
  · rw [Memory.read, hm]
    exact hx
  · rw [Directory.read, he]
    simp only [bind, Except.bind, hd]
    exact hx

-- The longest burst, from the middle of a byte to the middle of another, with an entry that it gets
-- into.
theorem checksumMismatch_of_burst_unaligned :
    Crc32c.ofBytes [7, 0, 9, 0, 1] ≠ Crc32c.ofBytes [0x17, 0, 9, 0, 9] ∧
      ∃ sealed, Seal.Garbled [7, 0, 9, 0, 1] [0x17, 0, 9, 0, 9] sealed ∧
        Seal.contentOf "a" sealed = .error (.checksumMismatch "a") := by
  have hb : Burst (Bytes.bits [7, 0, 9, 0, 1]) (Bytes.bits [0x17, 0, 9, 0, 9]) := by
    have hin : ∀ i < 40,
        (Bytes.bits [7, 0, 9, 0, 1])[i]? ≠ (Bytes.bits [0x17, 0, 9, 0, 9])[i]? →
          4 ≤ i ∧ i < 4 + 32 := by
      decide
    refine ⟨4, fun i hi => hin i (Nat.lt_of_not_le fun hle => hi ?_) hi⟩
    rw [List.getElem?_eq_none hle, List.getElem?_eq_none hle]
  have hne : ([7, 0, 9, 0, 1] : Bytes) ≠ [0x17, 0, 9, 0, 9] := by decide
  have hl : ([7, 0, 9, 0, 1] : Bytes).length = [0x17, 0, 9, 0, 9].length := rfl
  have ⟨hc, hx⟩ := checksumMismatch_of_burst hl hne hb
  have hd := Compression.Lossless.decompress_compress [[0x17, 0, 9, 0, 9]]
  have hs : Seal.Garbled [7, 0, 9, 0, 1] [0x17, 0, 9, 0, 9] _ :=
    ⟨[[7, 0, 9, 0, 1]], _, _, _, rfl, Seal.ofPieces_eq _, Bytes.length_littleEndian .., hd, rfl⟩
  exact ⟨hc, _, hs, (hx "a" _ hs).left⟩

end Archive
end BitPacking
