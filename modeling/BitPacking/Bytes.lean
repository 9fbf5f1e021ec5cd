namespace BitPacking

abbrev Bytes := List UInt8

namespace Bytes

def blockSize : Nat :=
  4096

def bigEndian : (count n : Nat) → Bytes
  | 0, _ => []
  | k + 1, n => UInt8.ofNat (n >>> (8 * k)) :: bigEndian k n

def ofBigEndian (bytes : Bytes) : Nat :=
  bytes.foldl (fun n b => n * 256 + b.toNat) 0

def littleEndian : (count n : Nat) → Bytes
  | 0, _ => []
  | k + 1, n => UInt8.ofNat n :: littleEndian k (n / 256)

def ofLittleEndian : Bytes → Nat
  | [] => 0
  | b :: bs => b.toNat + 256 * ofLittleEndian bs

def cut? (count : Nat) (bytes : Bytes) : Option (Bytes × Bytes) :=
  let front := bytes.take count
  if front.length = count then some (front, bytes.drop count) else none

theorem mod_one_shiftLeft_lt (n k : Nat) : n % (1 <<< k) < 1 <<< k :=
  Nat.mod_lt _ (Nat.one_shiftLeft k ▸ Nat.two_pow_pos k)

@[simp]
theorem length_bigEndian (k n : Nat) : (bigEndian k n).length = k := by
  induction k with
  | zero => rfl
  | succ k ih => simp [bigEndian, ih]

@[simp]
theorem length_littleEndian (k n : Nat) : (littleEndian k n).length = k := by
  induction k generalizing n with
  | zero => rfl
  | succ k ih => simp [littleEndian, ih]

theorem ofLittleEndian_littleEndian {k n : Nat} (h : n < 1 <<< (8 * k)) :
    ofLittleEndian (littleEndian k n) = n := by
  induction k generalizing n with
  | zero => simp_all [littleEndian, ofLittleEndian]
  | succ k ih =>
    rw [Nat.mul_succ, Nat.shiftLeft_add] at h
    have h' : n / 256 < 1 <<< (8 * k) := by omega
    simp [littleEndian, ofLittleEndian, ih h']
    omega

theorem cut?_eq_some_iff {k : Nat} {bytes front rest : Bytes} :
    cut? k bytes = some (front, rest) ↔ front.length = k ∧ bytes = front ++ rest := by
  constructor
  · intro h
    simp only [cut?] at h
    split at h
    · next hk => cases h; exact ⟨hk, (List.take_append_drop k bytes).symm⟩
    · cases h
  · rintro ⟨rfl, rfl⟩
    simp [cut?]

end Bytes
end BitPacking
