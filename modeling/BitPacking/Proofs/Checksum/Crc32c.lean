import BitPacking.Checksum.Crc32c
import BitPacking.Proofs.Bits.Digits
import Mathlib.Data.Nat.Bitwise

namespace BitPacking

namespace Bytes

-- The bits of a byte string in the order of a checksum, those of each byte from the lowest one on.
def bits (bytes : Bytes) : List Bool :=
  bytes.flatMap fun b => (Bits.digits 8 b.toNat).reverse

theorem bits_cons (b : UInt8) (bytes : Bytes) :
    bits (b :: bytes) = (Bits.digits 8 b.toNat).reverse ++ bits bytes :=
  rfl

theorem length_bits (bytes : Bytes) : (bits bytes).length = 8 * bytes.length := by
  induction bytes
  case nil          => rfl
  case cons b bs hi =>
    rw [bits_cons, List.length_append, List.length_reverse, Bits.length_digits, hi,
      List.length_cons, Nat.mul_succ, Nat.add_comm]

theorem bits_injective : Function.Injective bits := by
  intro xs ys h
  have hl : xs.length = ys.length := by
    have := congrArg List.length h
    rw [length_bits, length_bits] at this
    omega
  induction xs generalizing ys
  case nil          => exact (List.length_eq_zero_iff.1 hl.symm).symm
  case cons x xs hi =>
    obtain ⟨y, ys, rfl⟩ := List.exists_cons_of_length_eq_add_one hl.symm
    obtain ⟨hd, ht⟩ := List.append_inj h (by simp)
    have hxy : x = y :=
      UInt8.toNat_inj.1 (Bits.digits_inj x.toNat_lt y.toNat_lt (List.reverse_inj.1 hd))
    rw [hxy, hi ht (Nat.succ.inj hl)]

end Bytes

namespace Checksum.Crc32c

-- Takes in one bit of a message. It meets the low bit of the register, which is shifted out, and
-- the polynomial is taken off where a one was shifted out.
def takeBit (polynomial register : UInt32) (bit : Bool) : UInt32 :=
  let register := register ^^^ bit.toUInt32
  if register &&& 1 = 1 then (register >>> 1) ^^^ polynomial else register >>> 1

-- What is left of a message, where the register starts with ones.
def remainder (polynomial : UInt32) (bits : List Bool) : UInt32 :=
  bits.foldl (takeBit polynomial) 0xFFFFFFFF

variable {n k : Nat} {bits : List Bool}

theorem and_one_eq_one_iff (x : UInt32) : x &&& 1 = 1 ↔ x.toNat % 2 = 1 := by
  rw [← UInt32.toNat_inj, UInt32.toNat_and]
  exact Eq.congr_left (Nat.and_one_is_mod x.toNat)

theorem bitStep_eq (x : UInt32) :
    bitStep x = (x >>> 1) ^^^ if x.toNat % 2 = 1 then polynomial else 0 := by
  rw [bitStep]
  by_cases h : x.toNat % 2 = 1
  case pos => rw [if_pos ((and_one_eq_one_iff x).2 h), if_pos h]
  case neg => rw [if_neg (mt (and_one_eq_one_iff x).1 h), if_neg h, UInt32.xor_zero]

theorem bitStep_xor (x y : UInt32) : bitStep (x ^^^ y) = bitStep x ^^^ bitStep y := by
  -- Where both have a one at the low end, the polynomial is taken off twice.
  have hlow : (if (x ^^^ y).toNat % 2 = 1 then polynomial else 0) =
      (if x.toNat % 2 = 1 then polynomial else 0) ^^^
        if y.toNat % 2 = 1 then polynomial else 0 := by
    rw [UInt32.toNat_xor, Nat.xor_mod_two_eq, Nat.add_mod]
    rcases Nat.mod_two_eq_zero_or_one x.toNat with hx | hx
    all_goals
      rcases Nat.mod_two_eq_zero_or_one y.toNat with hy | hy
      all_goals rw [hx, hy]; decide
  rw [bitStep_eq, bitStep_eq, bitStep_eq, UInt32.shiftRight_xor, hlow]
  ac_rfl

theorem bitStep_double (h : 2 * n < 2 ^ 32) : bitStep (.ofNat (2 * n)) = .ofNat n := by
  have hn : (UInt32.ofNat (2 * n)).toNat = 2 * n := UInt32.toNat_ofNat_of_lt' h
  have hn' : (UInt32.ofNat n).toNat = n := UInt32.toNat_ofNat_of_lt' (by omega : n < 2 ^ 32)
  rw [bitStep_eq, hn, if_neg (by omega), UInt32.xor_zero, ← UInt32.toNat_inj,
    UInt32.toNat_shiftRight, hn, hn']
  exact (Nat.shiftRight_eq_div_pow ..).trans (Nat.mul_div_cancel_left n (by decide))

theorem bitSteps_xor (k : Nat) (x y : UInt32) :
    bitSteps k (x ^^^ y) = bitSteps k x ^^^ bitSteps k y := by
  induction k generalizing x y
  case zero      => rfl
  case succ k hi => rw [bitSteps, bitSteps, bitSteps, bitStep_xor, hi]

theorem bitSteps_shiftLeft (h : n <<< k < 2 ^ 32) : bitSteps k (.ofNat (n <<< k)) = .ofNat n := by
  induction k
  case zero      => rfl
  case succ k hi =>
    rw [Nat.shiftLeft_succ] at h ⊢
    rw [bitSteps, bitStep_double h, hi (by omega)]

theorem foldl_takeBit (h : bits.length ≤ 32) (register : UInt32) :
    bits.foldl (takeBit polynomial) register =
      bitSteps bits.length (register ^^^ .ofNat (Bits.number bits.reverse)) := by
  induction bits generalizing register
  case nil          => simp [bitSteps]
  case cons d ds hi =>
    let n := Bits.number ds.reverse
    have hn : Bits.number (d :: ds).reverse = d.toNat ^^^ 2 * n := by
      rw [List.reverse_cons, Bits.number_append, Nat.xor_comm]
      cases d
      case false => simp [n, Bits.number, Nat.mul_comm]
      case true  => simp [n, Bits.number, Nat.mul_comm, Nat.xor_one_of_even]
    have hlt : 2 * n < 2 ^ 32 := by
      have hds : ds.reverse.length ≤ 31 := by
        rw [List.length_reverse]
        exact Nat.le_of_succ_le_succ h
      have hle : 2 ^ ds.reverse.length ≤ 2 ^ 31 := Nat.pow_le_pow_right (by decide) hds
      have := Bits.number_lt ds.reverse
      omega
    have hd : UInt32.ofNat d.toNat = d.toUInt32 := by cases d <;> rfl
    rw [List.foldl_cons, hi (Nat.le_of_succ_le h), List.length_cons, bitSteps, hn,
      UInt32.ofNat_xor, hd, ← UInt32.xor_assoc, bitStep_xor, bitStep_double hlt]
    rfl

theorem mod_xor_shiftLeft (n k : Nat) : n % 2 ^ k ^^^ (n >>> k) <<< k = n := by
  apply Nat.eq_of_testBit_eq
  intro i
  by_cases h : i < k
  case pos => simp [Nat.testBit_mod_two_pow, h, Nat.not_le.2 h]
  case neg => simp [Nat.testBit_mod_two_pow, h, Nat.not_lt.1 h]

-- What is above the eight bits that are divided by only moves down.
theorem bitSteps_eight (x : UInt32) :
    bitSteps 8 x = bitSteps 8 (.ofNat (x.toNat % 2 ^ 8)) ^^^ (x >>> 8) := by
  have hlt : (x.toNat >>> 8) <<< 8 < 2 ^ 32 := by
    have := x.toNat_lt
    rw [Nat.shiftLeft_eq, Nat.shiftRight_eq_div_pow]
    omega
  have hhigh : x >>> 8 = .ofNat (x.toNat >>> 8) := by
    rw [← UInt32.toNat_inj, UInt32.toNat_shiftRight,
      UInt32.toNat_ofNat_of_lt' (Nat.lt_of_le_of_lt (Nat.shiftRight_le ..) x.toNat_lt)]
    rfl
  rw [hhigh, ← bitSteps_shiftLeft hlt, ← bitSteps_xor, ← UInt32.ofNat_xor, mod_xor_shiftLeft,
    UInt32.ofNat_toNat]

theorem byteStep_eq (register : UInt32) (b : UInt8) :
    byteStep register b = bitSteps 8 (register ^^^ b.toUInt32) := by
  have hentry (c : UInt8) : entry c = bitSteps 8 (.ofNat c.toNat) := by
    rw [entry, table]
    exact Vector.getElem_ofFn ..
  have hb : b.toUInt32 >>> 8 = 0 := by
    have := b.toNat_lt
    rw [← UInt32.toNat_inj]
    simp
    omega
  rw [bitSteps_eight, UInt32.shiftRight_xor, hb, UInt32.xor_zero, byteStep, hentry,
    UInt32.toNat_toUInt8]

theorem foldl_byteStep (bytes : Bytes) (register : UInt32) :
    bytes.foldl byteStep register = (Bytes.bits bytes).foldl (takeBit polynomial) register := by
  induction bytes generalizing register
  case nil          => rfl
  case cons b bs hi =>
    have hb : (Bits.digits 8 b.toNat).reverse.foldl (takeBit polynomial) register =
        byteStep register b := by
      rw [foldl_takeBit (by simp), List.length_reverse, List.reverse_reverse, Bits.length_digits,
        Bits.number_digits_of_lt b.toNat_lt, byteStep_eq, UInt32.ofNat_uInt8ToNat]
    rw [List.foldl_cons, hi, ← hb, ← List.foldl_append]
    rfl

theorem ofBytes_eq (bytes : Bytes) :
    ofBytes bytes = ~~~ remainder polynomial (Bytes.bits bytes) := by
  rw [ofBytes, value, update, foldl_byteStep]
  rfl

-- However a byte string is cut, its checksum is what is left of all of its bits.
theorem value_update_chunks (chunks : List Bytes) :
    (chunks.foldl update {}).value = ~~~ remainder 0x82F63B78 (Bytes.bits chunks.flatten) ∧
      (chunks.foldl update {}).value = ofBytes chunks.flatten := by
  have hcut (c : Crc32c) : chunks.foldl update c = c.update chunks.flatten := by
    induction chunks generalizing c
    case nil          => rfl
    case cons b bs hi => rw [List.foldl_cons, hi, List.flatten_cons, update_append]
  have hone : (chunks.foldl update {}).value = ofBytes chunks.flatten :=
    congrArg value (hcut {})
  exact ⟨hone.trans (ofBytes_eq chunks.flatten), hone⟩

example : ofBytes [49, 50, 51, 52, 53, 54, 55, 56, 57] = 0xE3069283 := by decide +kernel

end Checksum.Crc32c
end BitPacking
