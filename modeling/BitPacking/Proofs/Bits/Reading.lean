import Mathlib.Data.List.DropRight
import Mathlib.Data.List.SplitLengths
import BitPacking.Proofs.Bits.Demand
import BitPacking.Proofs.Bits.Scanner
import BitPacking.Proofs.Bits.Writing
import BitPacking.Proofs.Fragmentation

namespace BitPacking

namespace Source

-- The next `k` reads find the source at its end.
def AtEnd (s : Source) (n : Nat) : (k : Nat) → Prop
  | 0     => True
  | k + 1 => (s.readOn n).1 = .endOfInput ∧ (s.readOn n).2.AtEnd n k

theorem Lasting.atEnd {s : Source} {n : Nat} (hl : s.Lasting) (he : s.ending = .ok ())
    (hs : s.supplied = []) (hn : 0 < n) (k : Nat) : s.AtEnd n k := by
  induction k generalizing s
  case zero      => trivial
  case succ k hi =>
    have ⟨a, s', hr, ha, ho⟩ := exists_readOn_final hn hs
    have ⟨hl', hw, hs'⟩ := hl.readOn hr
    have he' : s'.ending = .ok () := by rw [hl'.ending, hw, ← hl.ending, he]
    have hend : a = .endOfInput := by
      rw [he] at ho
      cases a
      case endOfInput => rfl
      case failure    => cases ho
      all_goals cases ha
    rw [hs] at hs'
    rw [AtEnd, hr]
    exact ⟨hend, hi hl' he' (List.append_eq_nil_iff.1 hs'.symm).right⟩

end Source

namespace Bits

def element (ds : List Bool) : UInt64 :=
  .ofNat (number (ds.rtake 64))

theorem element_eq (ds : List Bool) : element ds = .ofNat (number ds) := by
  apply UInt64.toNat_inj.1
  rw [element, UInt64.toNat_ofNat', UInt64.toNat_ofNat']
  by_cases h : ds.length ≤ 64
  case pos => simp [List.rtake, h]
  case neg =>
    have hlen : (ds.rtake 64).length = 64 := by simp [List.rtake]; omega
    have hds : ds.take (ds.length - 64) ++ ds.rtake 64 = ds := List.take_append_drop ..
    conv_rhs => rw [← hds, number_append, hlen, Nat.mul_add_mod_self_right]

theorem element_digits (value : UInt64) (width : Nat) :
    element (digits width value.toNat) = lowBits value width := by
  rw [element_eq, number_digits, lowBits, Nat.one_shiftLeft]
  split
  case isTrue h  =>
    have hv : value.toNat < 2 ^ width :=
      value.toNat_lt.trans_le (Nat.pow_le_pow_right Nat.two_pos h)
    rw [Nat.mod_eq_of_lt hv, UInt64.ofNat_toNat]
  case isFalse   => rfl

-- What a read gives that finds all digits of its element.
def whole (ds : List Bool) : Except IoError (Option UInt64) :=
  .ok (some (element ds))

-- What a read gives that finds nothing: an element of no digits takes nothing.
def missing (width : Nat) : Except IoError (Option UInt64) :=
  .ok (if width = 0 then some 0 else none)

namespace Reader

variable {r r' : Reader} {width : Nat} {widths : List Nat}

def afterReads (r : Reader) (widths : List Nat) : Reader :=
  r.run (widths.map .bits)

theorem reads_append (r : Reader) (front more : List Nat) :
    r.reads (front ++ more) = r.reads front ++ (r.afterReads front).reads more := by
  induction front generalizing r
  case nil          => rfl
  case cons w ws hi => rw [List.cons_append, reads, reads, List.cons_append, hi]; rfl

theorem afterReads_append (r : Reader) (front more : List Nat) :
    r.afterReads (front ++ more) = (r.afterReads front).afterReads more := by
  simp [afterReads, run]

theorem reads_of_le (h : widths.sum ≤ r.digits.length) :
    r.reads widths = (widths.splitLengths r.digits).map whole ∧
      (r.afterReads widths).digits = r.digits.drop widths.sum ∧
      (r.afterReads widths).ending = r.ending := by
  induction widths generalizing r
  case nil          => exact ⟨rfl, rfl, rfl⟩
  case cons w ws hi =>
    rw [List.sum_cons] at h
    have hw : w ≤ r.digits.length := by omega
    have ⟨r', hr, hd, he⟩ := readBits_of_le hw
    have ⟨hs, hd', he'⟩ := hi (r := r') (by rw [hd, List.length_drop]; omega)
    have ha : r.afterReads (w :: ws) = r'.afterReads ws := by
      show (r.readBits w).2.afterReads ws = _
      rw [hr]
    refine ⟨?_, ?_, ?_⟩
    · rw [reads, hr, hs, hd, List.splitLengths_cons, List.map_cons, whole, element_eq]
    · rw [ha, hd', hd, List.drop_drop, List.sum_cons]
    · rw [ha, he', he]

-- A reader that has nothing at hand: no bits of a byte and no byte of a block.
structure Spent (r : Reader) : Prop where
  unread : r.unread = 0
  block  : r.block = []

theorem spent_of_readBits (h : (r.readBits width).1 = .ok none) : (r.readBits width).2.Spent := by
  have ⟨as, _, hnone⟩ := exists_takes_readBits r width
  have hd := (hnone (by rw [h]; rfl)).right
  have hl := congrArg List.length hd
  simp [digits_withOnly] at hl
  exact ⟨hl.left, hl.right⟩

namespace Spent

theorem readBits_zero (h : r.Spent) : r.readBits 0 = (missing 0, r) := by
  have hc : r.current = 0 := by
    have hlt := r.current_lt
    rw [h.unread] at hlt
    exact Nat.lt_one_iff.1 hlt
  have hu := h.unread
  cases r
  simp_all [readBits, fill, takeBits, missing]

theorem readBits_of_atEnd (h : r.Spent) (hw : width ≠ 0)
    (he : (r.source.readOn r.blockSize).1 = .endOfInput) :
    (r.readBits width).1 = missing width ∧ (r.readBits width).2.Spent ∧
      (r.readBits width).2.blockSize = r.blockSize ∧
      (r.readBits width).2.source = (r.source.readOn r.blockSize).2 := by
  rcases hr : r.source.readOn r.blockSize with ⟨a, source⟩
  rw [hr] at he
  have hn : r.nextByte = (.ok none, { r with source }) := by
    simp only [nextByte, h.block, hr, show a = .endOfInput from he]
  have hk : (width - r.unread + 7) / 8 = (width - 1) / 8 + 1 := by
    rw [h.unread]
    omega
  rw [readBits, hk, fill, hn]
  exact ⟨by simp [missing, hw], ⟨rfl, h.block⟩, rfl, rfl⟩

theorem reads_of_atEnd (h : r.Spent)
    (he : r.source.AtEnd r.blockSize (widths.countP (· ≠ 0))) :
    r.reads widths = widths.map missing := by
  induction widths generalizing r
  case nil          => rfl
  case cons w ws hi =>
    by_cases hw : w = 0
    case pos =>
      rw [List.countP_cons_of_neg (by simp [hw])] at he
      rw [reads, hw, h.readBits_zero, hi h he, List.map_cons]
    case neg =>
      rw [List.countP_cons_of_pos (by simp [hw])] at he
      obtain ⟨hx, h', hb, hs⟩ := h.readBits_of_atEnd hw he.left
      rw [reads, hx, hi h' (by rw [hs, hb]; exact he.right), List.map_cons]

end Spent

theorem afterReads_lasting (hl : r.source.Lasting) (widths : List Nat) :
    (r.afterReads widths).source.Lasting ∧ (r.afterReads widths).ending = r.ending := by
  induction widths generalizing r
  case nil          => exact ⟨hl, rfl⟩
  case cons w ws hi =>
    have ⟨hl₁, he₁, _⟩ := readBits_lasting hl w
    have ⟨hl', he'⟩ := hi hl₁
    exact ⟨hl', he'.trans he₁⟩

theorem length_digits_afterReads_lt {front : List Nat} (h : front.sum ≤ r.digits.length)
    (hw : r.digits.length < front.sum + width) : (r.afterReads front).digits.length < width := by
  rw [(reads_of_le h).right.left, List.length_drop]
  omega

-- The first slice that there are too few digits for.
theorem reads_of_lt {front : List Nat} (h : front.sum ≤ r.digits.length)
    (hw : r.digits.length < front.sum + width) (he : r.ending = .ok ()) :
    r.reads (front ++ [width]) = (front.splitLengths r.digits).map whole ++ [.ok none] ∧
      (r.afterReads (front ++ [width])).Spent := by
  have ⟨hs, _, he'⟩ := reads_of_le h
  have hn : ((r.afterReads front).readBits width).1 = .ok none := by
    rw [readBits_of_lt (length_digits_afterReads_lt h hw), he', he]
    rfl
  constructor
  case left  => rw [reads_append, hs, reads, hn]; rfl
  case right => rw [afterReads_append]; exact spent_of_readBits hn

theorem supplied_of_lt {front : List Nat} (hl : r.source.Lasting)
    (h : front.sum ≤ r.digits.length) (hw : r.digits.length < front.sum + width) :
    (r.afterReads (front ++ [width])).source.supplied = [] := by
  have ⟨_, _, hd⟩ := readBits_lasting (afterReads_lasting hl front).left width
  have hx := congrArg List.length (hd (length_digits_afterReads_lt h hw))
  rw [length_digits, List.length_nil, bytes, List.length_append] at hx
  rw [afterReads_append]
  apply List.eq_nil_of_length_eq_zero
  show (readBits _ width).2.source.supplied.length = 0
  omega

end Reader

theorem Writer.digits_puts (w : Writer) (elements : List (UInt64 × Nat)) :
    (w.puts elements).digits = w.digits ++ elements.flatMap fun e => Bits.digits e.2 e.1.toNat := by
  induction elements generalizing w
  case nil                => exact (List.append_nil _).symm
  case cons e elements hi =>
    show ((w.put e.1 e.2).puts elements).digits = _
    rw [hi, digits_put, List.append_assoc, List.flatMap_cons]

theorem splitLengths_elements (elements : List (UInt64 × Nat)) (ds : List Bool) :
    (elements.map (·.2)).splitLengths ((elements.flatMap fun e => digits e.2 e.1.toNat) ++ ds) =
      elements.map fun e => digits e.2 e.1.toNat := by
  induction elements
  case nil             => rfl
  case cons e elements hi =>
    rw [List.map_cons, List.splitLengths_cons, List.flatMap_cons, List.append_assoc,
      List.take_left' (length_digits ..), List.drop_left' (length_digits ..), hi, List.map_cons]

def Scanner.reads? (c : Scanner) : (widths : List Nat) →
    Option (List (Except IoError (Option UInt64)) × Scanner)
  | []      => some ([], c)
  | w :: ws => do
    let (x, c) ← c.readBits? w
    let (xs, c) ← c.reads? ws
    return (x :: xs, c)

theorem Scanner.Follows.reads? {c : Scanner} {r : Reader} (h : c.Follows 0 0 r)
    (widths : List Nat) : ∃ c', c.reads? widths = some (r.reads widths, c') ∧
      c'.Follows 0 0 (r.afterReads widths) := by
  induction widths generalizing c r
  case nil          => exact ⟨c, rfl, h⟩
  case cons w ws hi =>
    have ⟨c₁, hc, h₁⟩ := readBits?_eq h w
    have ⟨c', hc', h'⟩ := hi h₁
    refine ⟨c', ?_, h'⟩
    simp [Scanner.reads?, hc, hc', Reader.reads]

-- What reads of elements from a source come to.
structure Sliced (source : Source) (blockSize : Nat) : Prop where
  -- As long as there are bits enough, each read gives what its slice spells.
  whole   : ∀ widths : List Nat, widths.sum ≤ 8 * source.supplied.length →
    (Reader.ofSource source blockSize).reads widths =
      (widths.splitLengths (Bytes.digits source.supplied)).map Bits.whole
  -- The first slice that does not fit is not there, and neither is any after it while the source
  -- stays at its end. One that ends for good does.
  cut     : ∀ (front : List Nat) (width : Nat) (more : List Nat),
    front.sum ≤ 8 * source.supplied.length →
    8 * source.supplied.length < front.sum + width → source.ending = .ok () →
    let r := (Reader.ofSource source blockSize).afterReads (front ++ [width])
    (r.source.AtEnd r.blockSize (more.countP (· ≠ 0)) →
      (Reader.ofSource source blockSize).reads (front ++ width :: more) =
        (front.splitLengths (Bytes.digits source.supplied)).map Bits.whole ++
          .ok none :: more.map missing) ∧
    (source.Lasting → ∀ k, r.source.AtEnd r.blockSize k)
  -- Elements that were written are read back.
  written : ∀ elements : List (UInt64 × Nat),
    source.supplied = (Writer.empty.puts elements).bytes →
    (Reader.ofSource source blockSize).reads (elements.map (·.2)) =
      elements.map fun e => .ok (some (lowBits e.1 e.2))
  -- A scanner gives the same and asks its source for the same.
  scanned : ∀ widths : List Nat, ∃ c,
    (Scanner.ofSource source blockSize).reads? widths =
      some ((Reader.ofSource source blockSize).reads widths, c) ∧
    c.source = ((Reader.ofSource source blockSize).afterReads widths).source

theorem sliced_of_reads (source : Source) (blockSize : Nat) : Sliced source blockSize := by
  have hd : (Reader.ofSource source blockSize).digits = Bytes.digits source.supplied :=
    Reader.digits_of_unread_eq_zero rfl
  have hlen : (Reader.ofSource source blockSize).digits.length = 8 * source.supplied.length := by
    rw [hd, Bytes.length_digits]
  refine { whole := ?whole, cut := ?cut, written := ?written, scanned := ?scanned }
  case whole   =>
    intro widths h
    rw [← hd]
    exact (Reader.reads_of_le (hlen ▸ h)).left
  case cut     =>
    intro front width more h hw he r
    rw [← hlen] at h hw
    have ⟨hx, hs⟩ := Reader.reads_of_lt (r := .ofSource source blockSize) h hw he
    constructor
    case left  =>
      intro hend
      rw [← List.singleton_append, ← List.append_assoc, Reader.reads_append, hx, ← hd,
        hs.reads_of_atEnd hend, List.append_assoc, List.singleton_append]
    case right =>
      intro hl k
      have ⟨hl', he'⟩ :=
        Reader.afterReads_lasting (r := .ofSource source blockSize) hl (front ++ [width])
      exact hl'.atEnd (he'.trans he) (Reader.supplied_of_lt hl h hw) r.blockSize_pos k
  case written =>
    intro elements h
    have hds : Bytes.digits source.supplied = (elements.flatMap fun e => digits e.2 e.1.toNat) ++
        List.replicate (Writer.empty.puts elements).freeBits false := by
      rw [h, Writer.digits_bytes, Writer.digits_puts]
      rfl
    have hsum : (elements.map (·.2)).sum ≤ 8 * source.supplied.length := by
      have hl := congrArg List.length hds
      simp [List.length_flatMap] at hl
      omega
    rw [← hlen] at hsum
    rw [(Reader.reads_of_le hsum).left, hd, hds, splitLengths_elements, List.map_map]
    exact List.map_congr_left fun e _ => by simp [Bits.whole, element_digits]
  case scanned =>
    intro widths
    have ⟨c, hc, hf⟩ := (Scanner.ofSource_follows source blockSize).reads? widths
    exact ⟨c, hc, hf.source.symm⟩

-- Elements across blocks of two bytes and an interruption, and then a slice of more than 64 bits.
theorem sliced_of_reads_interrupted :
    let elements : List (UInt64 × Nat) := [(0x15, 3), (0xFFFFFFFFFFFFFFFF, 64), (9, 0), (1, 1)]
    let bytes := (Writer.empty.puts elements).bytes
    let source : Source := { answers := [.data (bytes.take 3), .interrupted, .data (bytes.drop 3)] }
    source.supplied = bytes ∧ source.ending = .ok () ∧ source.Lasting ∧ bytes.length = 9 ∧
      (Reader.ofSource source 2).reads [3, 64, 0, 1] =
        [.ok (some 5), .ok (some 0xFFFFFFFFFFFFFFFF), .ok (some 0), .ok (some 1)] ∧
      (Reader.ofSource source 2).reads [70, 3, 0, 1] =
        [.ok (some 0xFFFFFFFFFFFFFFFC), .ok none, .ok (some 0), .ok none] := by
  intro elements bytes source
  have hs : source.supplied = bytes := by decide +kernel
  have hl : bytes.length = 9 := by decide +kernel
  have h := sliced_of_reads source 2
  have ⟨hcut, hend⟩ := h.cut [70] 3 [0, 1] (by rw [hs, hl]; decide) (by rw [hs, hl]; decide) rfl
  refine ⟨hs, rfl, rfl, hl, (h.written elements hs).trans ?_, (hcut (hend rfl _)).trans ?_⟩
  · decide +kernel
  · rw [hs]
    decide +kernel

end Bits
end BitPacking
