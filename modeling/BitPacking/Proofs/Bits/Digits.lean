import BitPacking.Bytes
import Mathlib.Tactic.Ring

namespace BitPacking

namespace Bits

def digits : (width n : Nat) → List Bool
  | 0, _ => []
  | k + 1, n => n.testBit k :: digits k n

def number (ds : List Bool) : Nat :=
  ds.foldl (fun n d => 2 * n + d.toNat) 0

variable {j k m n : Nat} {d : Bool} {ds : List Bool}

@[simp]
theorem digits_zero (n : Nat) : digits 0 n = [] :=
  rfl

@[simp]
theorem length_digits (k n : Nat) : (digits k n).length = k := by
  induction k
  case zero      => rfl
  case succ _ hi => simp [digits, hi]

theorem digits_mod (h : k ≤ j) : digits k (n % 2 ^ j) = digits k n := by
  induction k
  case zero      => rfl
  case succ k hi =>
    have hk : k < j := h
    simp [digits, hi hk.le, hk]

theorem digits_add (j k n : Nat) : digits (j + k) n = digits j (n >>> k) ++ digits k n := by
  induction j
  case zero      => simp
  case succ j hi =>
    rw [Nat.succ_add, digits, hi, digits, Nat.testBit_shiftRight, Nat.add_comm k j]
    rfl

theorem digits_shiftLeft_add (h : n < 2 ^ k) :
    digits (j + k) (m <<< k + n) = digits j m ++ digits k n := by
  have hm : (m <<< k + n) >>> k = m := by
    rw [Nat.shiftLeft_eq, Nat.shiftRight_eq_div_pow, Nat.add_comm,
      Nat.add_mul_div_right _ _ (Nat.two_pow_pos k), Nat.div_eq_of_lt h, Nat.zero_add]
  have hn : (m <<< k + n) % 2 ^ k = n := by
    rw [Nat.shiftLeft_eq, Nat.mul_add_mod_of_lt h]
  rw [digits_add, hm, ← digits_mod (n := m <<< k + n) le_rfl, hn]

@[simp]
theorem number_nil : number [] = 0 :=
  rfl

theorem number_cons (d : Bool) (ds : List Bool) :
    number (d :: ds) = d.toNat * 2 ^ ds.length + number ds := by
  have h (n : Nat) : ds.foldl (fun n d => 2 * n + d.toNat) n = n * 2 ^ ds.length + number ds := by
    induction ds generalizing n
    case nil          => simp
    case cons b bs hi =>
      rw [number, List.foldl_cons, List.foldl_cons, hi, hi, List.length_cons]
      ring
  rw [number, List.foldl_cons, h]
  simp

theorem number_append (xs ys : List Bool) :
    number (xs ++ ys) = number xs * 2 ^ ys.length + number ys := by
  induction xs
  case nil          => simp
  case cons x xs hi =>
    rw [List.cons_append, number_cons, number_cons, hi, List.length_append, pow_add]
    ring

@[simp]
theorem number_digits (k n : Nat) : number (digits k n) = n % 2 ^ k := by
  induction k
  case zero      => simp [Nat.mod_one]
  case succ k hi =>
    rw [digits, number_cons, hi, length_digits, Nat.mod_pow_succ, Nat.toNat_testBit]
    ring

theorem number_digits_of_lt (h : n < 2 ^ k) : number (digits k n) = n := by
  rw [number_digits, Nat.mod_eq_of_lt h]

theorem number_lt (ds : List Bool) : number ds < 2 ^ ds.length := by
  induction ds
  case nil          => exact Nat.one_pos
  case cons d ds hi =>
    rw [number_cons, List.length_cons, pow_succ]
    cases d
    case false => simp; omega
    case true  => simp; omega

theorem digits_number (ds : List Bool) : digits ds.length (number ds) = ds := by
  induction ds
  case nil          => rfl
  case cons d ds hi =>
    rw [number_cons, List.length_cons, Nat.add_comm ds.length, ← Nat.shiftLeft_eq,
      digits_shiftLeft_add (number_lt ds), hi]
    cases d <;> rfl

theorem digits_inj (hm : m < 2 ^ k) (hn : n < 2 ^ k) (h : digits k m = digits k n) : m = n := by
  rw [← number_digits_of_lt hm, h, number_digits_of_lt hn]

theorem digits_eq_replicate (k : Nat) : digits k 0 = List.replicate k false := by
  induction k
  case zero      => rfl
  case succ k hi => simp [digits, hi, List.replicate_succ]

end Bits

namespace Bytes

def digits (bytes : Bytes) : List Bool :=
  bytes.flatMap fun b => Bits.digits 8 b.toNat

variable {xs ys : Bytes}

@[simp]
theorem digits_nil : digits [] = [] :=
  rfl

@[simp]
theorem digits_cons (b : UInt8) (bytes : Bytes) :
    digits (b :: bytes) = Bits.digits 8 b.toNat ++ digits bytes :=
  rfl

@[simp]
theorem digits_append (xs ys : Bytes) : digits (xs ++ ys) = digits xs ++ digits ys :=
  List.flatMap_append

theorem digits_prefix {xs ys : Bytes} (h : xs <+: ys) : digits xs <+: digits ys := by
  have ⟨zs, hz⟩ := h
  rw [← hz, digits_append]
  exact List.prefix_append ..

@[simp]
theorem length_digits (bytes : Bytes) : (digits bytes).length = 8 * bytes.length := by
  induction bytes
  case nil         => rfl
  case cons _ _ hi => simp [hi]; ring

theorem digits_ofNat (n : Nat) : Bits.digits 8 (UInt8.ofNat n).toNat = Bits.digits 8 n := by
  rw [UInt8.toNat_ofNat']
  exact Bits.digits_mod le_rfl

@[simp]
theorem digits_bigEndian (k n : Nat) : digits (bigEndian k n) = Bits.digits (8 * k) n := by
  induction k
  case zero      => rfl
  case succ k hi =>
    rw [bigEndian, digits_cons, hi, digits_ofNat, Nat.mul_succ, Nat.add_comm, Bits.digits_add]

theorem exists_append_of_digits_eq {ds : List Bool} (h : digits xs = digits ys ++ ds) :
    ∃ zs, xs = ys ++ zs ∧ digits zs = ds := by
  induction ys generalizing xs
  case nil          => exact ⟨xs, rfl, h⟩
  case cons y ys hi =>
    cases xs
    case nil       => simp [Bits.digits] at h
    case cons x xs =>
      rw [digits_cons, digits_cons, List.append_assoc] at h
      have ⟨hd, ht⟩ := List.append_inj h (by simp)
      have ⟨zs, hz, hds⟩ := hi ht
      have hxy : x = y := UInt8.toNat_inj.1 (Bits.digits_inj x.toNat_lt y.toNat_lt hd)
      exact ⟨zs, by rw [hxy, hz, List.cons_append], hds⟩

theorem digits_injective (h : digits xs = digits ys) : xs = ys := by
  have ⟨zs, hz, hd⟩ := exists_append_of_digits_eq (h.trans (List.append_nil _).symm)
  cases zs
  case nil  => simpa using hz
  case cons => simp [Bits.digits] at hd

theorem number_digits (bytes : Bytes) : Bits.number (digits bytes) = ofBigEndian bytes := by
  have h (n : Nat) : bytes.foldl (fun n b => n * 256 + b.toNat) n =
      n * 2 ^ (8 * bytes.length) + Bits.number (digits bytes) := by
    induction bytes generalizing n
    case nil          => simp
    case cons b bs hi =>
      rw [List.foldl_cons, hi, digits_cons, Bits.number_append, length_digits,
        Bits.number_digits_of_lt b.toNat_lt, List.length_cons]
      ring
  rw [ofBigEndian, h]
  simp

theorem ofBigEndian_bigEndian {k n : Nat} (h : n < 2 ^ (8 * k)) :
    ofBigEndian (bigEndian k n) = n := by
  rw [← number_digits, digits_bigEndian, Bits.number_digits_of_lt h]

theorem ofBigEndian_lt (bytes : Bytes) : ofBigEndian bytes < 2 ^ (8 * bytes.length) := by
  rw [← number_digits, ← length_digits]
  exact Bits.number_lt _

theorem bigEndian_ofBigEndian (bytes : Bytes) :
    bigEndian bytes.length (ofBigEndian bytes) = bytes := by
  apply digits_injective
  rw [digits_bigEndian, ← number_digits, ← length_digits, Bits.digits_number]

end Bytes
end BitPacking
