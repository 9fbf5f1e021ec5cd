import BitPacking.Bits.Writer
import BitPacking.Proofs.Bits.Digits

namespace BitPacking.Bits.Writer

def digits (w : Writer) : List Bool :=
  Bytes.digits w.whole.toList ++ Bits.digits w.used w.tail

theorem length_digits (w : Writer) : w.digits.length = 8 * w.completeLength + w.used := by
  rw [digits, List.length_append, Bytes.length_digits, Bits.length_digits, completeLength,
    Array.length_toList]

@[simp]
theorem digits_ofBytes (bytes : Bytes) : (ofBytes bytes).digits = Bytes.digits bytes := by
  simp [digits, ofBytes]

@[simp]
theorem digits_put (w : Writer) (element : UInt64) (width : Nat) :
    (w.put element width).digits = w.digits ++ Bits.digits width element.toNat := by
  -- The unfinished byte and the element spell one number, which is cut into bytes.
  have hn : Bits.digits (w.used + width) (w.tail <<< width + element.toNat % 2 ^ width) =
      Bits.digits w.used w.tail ++ Bits.digits width element.toNat := by
    rw [digits_shiftLeft_add (Nat.mod_lt _ (Nat.two_pow_pos width)), digits_mod le_rfl]
  have hs (n : Nat) : Bits.digits (w.used + width) n =
      Bits.digits (8 * ((w.used + width) / 8)) (n >>> ((w.used + width) % 8)) ++
        Bits.digits ((w.used + width) % 8) n := by
    rw [← digits_add, Nat.div_add_mod]
  simp only [digits, put, Array.toList_append, Bytes.digits_append, Bytes.digits_bigEndian,
    Nat.one_shiftLeft, digits_mod le_rfl, List.append_assoc]
  rw [← hn, hs]

theorem digits_bytes (w : Writer) :
    Bytes.digits w.bytes = w.digits ++ List.replicate w.freeBits false := by
  have hw := w.used_lt
  rw [bytes, digits, Bytes.digits_append, List.append_assoc]
  congr 1
  split
  case isTrue h  => simp [h, freeBits]
  case isFalse h =>
    have hf : w.used + w.freeBits = 8 := by simp only [freeBits]; omega
    have hz := digits_shiftLeft_add (j := w.used) (m := w.tail) (Nat.two_pow_pos w.freeBits)
    rw [Nat.add_zero, hf, digits_eq_replicate] at hz
    rw [Bytes.digits_cons, Bytes.digits_ofNat, hz, Bytes.digits_nil, List.append_nil]

theorem freeBits_lt (w : Writer) : w.freeBits < 8 :=
  Nat.mod_lt _ (by decide)

theorem freeBits_eq_zero_iff {w : Writer} : w.freeBits = 0 ↔ w.used = 0 := by
  have := w.used_lt
  simp only [freeBits]
  omega

theorem digits_takeComplete (w : Writer) :
    Bytes.digits w.takeComplete.1 ++ w.takeComplete.2.digits = w.digits :=
  rfl

end BitPacking.Bits.Writer
