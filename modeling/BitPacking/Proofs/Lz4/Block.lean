import BitPacking.Lz4.Block
import Mathlib.Tactic.Common

namespace BitPacking.Lz4.Block

variable {front out r : Array UInt8} {offset count floor limit : Nat} {input : Bytes}

theorem copyBack_append (front : Array UInt8) (h : offset ≤ out.size) (count : Nat) :
    copyBack (front ++ out) offset count = front ++ copyBack out offset count := by
  induction count generalizing out
  case zero        => rfl
  case succ n hi =>
    have hb : (front ++ out).getD ((front ++ out).size - offset) 0 =
        out.getD (out.size - offset) 0 := by
      have hs : (front ++ out).size - offset = front.size + (out.size - offset) := by
        rw [Array.size_append]
        omega
      rw [Array.getD_eq_getD_getElem?, Array.getD_eq_getD_getElem?, hs,
        Array.getElem?_append_right (Nat.le_add_right ..), Nat.add_sub_cancel_left]
    rw [copyBack, copyBack, hb, ← Array.append_push]
    exact hi (by rw [Array.size_push]; exact Nat.le_succ_of_le h)

section decode

variable {token low high : UInt8} {literals rest rest' : Bytes} {length : Nat}

theorem decode_last (hl : readLiterals token input = some (literals, []))
    (hs : (out ++ literals.toArray).size ≤ limit) :
    decode floor limit out (token :: input) = some (out ++ literals.toArray) := by
  rw [decode]
  split
  case h_1 h => rw [hl] at h; cases h
  case h_2 h => rw [hl] at h; cases h; exact if_neg (Nat.not_lt.2 hs)

theorem decode_copy (hl : readLiterals token input = some (literals, low :: high :: rest))
    (hc : readLength (token.toNat % 16) rest = some (length, rest'))
    (ho : offset = Bytes.ofLittleEndian [low, high])
    (hs : (out ++ literals.toArray).size ≤ limit)
    (hn : ¬(offset = 0 ∨ (out ++ literals.toArray).size < floor + offset ∨
      limit < (out ++ literals.toArray).size + (length + minCopy))) :
    decode floor limit out (token :: input) =
      decode floor limit (copyBack (out ++ literals.toArray) offset (length + minCopy)) rest' := by
  rw [decode]
  split
  case h_1 h => rw [hl] at h; cases h
  case h_2 h =>
    rw [hl] at h
    cases h
    simp only [if_neg (Nat.not_lt.2 hs)]
    split
    case h_1 h => rw [hc] at h; cases h
    case h_2 h => rw [hc] at h; cases h; subst ho; exact if_neg hn

end decode

theorem decode_append (front : Array UInt8) {limit' : Nat} (hl : limit ≤ limit')
    (h : decode floor limit out input = some r) :
    decode (front.size + floor) (front.size + limit') (front ++ out) input = some (front ++ r) := by
  fun_induction decode floor limit out input
  case case4 out token input literals out' hs _ hlit           =>
    have ho : front ++ out ++ literals.toArray = front ++ out' := Array.append_assoc
    rw [decode_last hlit (by rw [ho, Array.size_append]; omega), ho, Option.some.inj h]
  case case8 out token _ literals out' hs low high _ hlit offset length _ hc count hn _ hi =>
    have ho : front ++ out ++ literals.toArray = front ++ out' := Array.append_assoc
    rw [decode_copy hlit hc rfl (by rw [ho, Array.size_append]; omega)
      (by rw [ho, Array.size_append]; omega), ho,
      copyBack_append front (by omega)]
    exact hi h
  all_goals cases h

end BitPacking.Lz4.Block
