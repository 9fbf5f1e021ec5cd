import BitPacking.Event

namespace BitPacking

def maxWidth : Nat :=
  64

def IsValidWidth (bits : Nat) : Prop :=
  1 ≤ bits ∧ bits ≤ maxWidth

instance (bits : Nat) : Decidable (IsValidWidth bits) :=
  inferInstanceAs (Decidable (_ ∧ _))

-- The length of `n` in binary, where zero counts as one digit.
def significantBits (n : UInt64) : Nat :=
  n.toNat.log2 + 1

def bitLength (n : UInt64) : Logged Nat := do
  if n = 0 then
    .emit .zeroMaximum
  return significantBits n

def lowBits (value : UInt64) (n : Nat) : UInt64 :=
  if maxWidth ≤ n then value else .ofNat (value.toNat % (1 <<< n))

theorem significantBits_le_iff {n : UInt64} {bits : Nat} (h : 1 ≤ bits) :
    significantBits n ≤ bits ↔ n.toNat < 1 <<< bits := by
  rw [significantBits, Nat.one_shiftLeft]
  rcases Nat.eq_zero_or_pos n.toNat with hn | hn
  · rw [hn]
    exact ⟨fun _ => Nat.two_pow_pos _, fun _ => h⟩
  · exact ⟨fun hb => (Nat.log2_lt (by omega)).1 hb, fun hb => (Nat.log2_lt (by omega)).2 hb⟩

theorem isValidWidth_significantBits (n : UInt64) : IsValidWidth (significantBits n) :=
  ⟨Nat.le_add_left .., (significantBits_le_iff (by decide)).2 n.toNat_lt⟩

end BitPacking
