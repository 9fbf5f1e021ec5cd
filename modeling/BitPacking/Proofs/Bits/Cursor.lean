import BitPacking.Proofs.Bits.Writer
import BitPacking.Width

namespace BitPacking.Bits

section Words

def shiftLeft? (x : UInt64) (n : Nat) : Option UInt64 :=
  if n < 64 then some (x <<< .ofNat n) else none

def shiftRight? (x : UInt64) (n : Nat) : Option UInt64 :=
  if n < 64 then some (x >>> .ofNat n) else none

def sub? {α : Type} [Sub α] [LE α] [DecidableLE α] (x y : α) : Option α :=
  if y ≤ x then some (x - y) else none

-- Adds the ones of a byte to those of the byte that is there.
def merge? (bytes : Bytes) (i : Nat) (b : UInt8) : Option Bytes :=
  bytes[i]?.map fun old => bytes.set i (old ||| b)

def lowBits? (x : UInt64) (n : Nat) : Option UInt64 :=
  if 64 ≤ n then some x
  else do return x &&& (← sub? (← shiftLeft? 1 n) 1)

variable {x : UInt64} {n k : Nat}

theorem toNat_ofNat_of_lt (h : n < 64) : (UInt64.ofNat n).toNat % 64 = n := by
  rw [UInt64.toNat_ofNat_of_lt' (Nat.lt_trans h (by decide)), Nat.mod_eq_of_lt h]

theorem shiftRight?_eq (h : n < 64) :
    ∃ y, shiftRight? x n = some y ∧ y.toNat = x.toNat >>> n := by
  refine ⟨_, if_pos h, ?_⟩
  rw [UInt64.toNat_shiftRight, toNat_ofNat_of_lt h]

theorem shiftLeft?_eq (h : n < 64) (hx : x.toNat <<< n < 2 ^ 64) :
    ∃ y, shiftLeft? x n = some y ∧ y.toNat = x.toNat <<< n := by
  refine ⟨_, if_pos h, ?_⟩
  rw [UInt64.toNat_shiftLeft, toNat_ofNat_of_lt h, Nat.mod_eq_of_lt hx]

theorem lowBits?_eq (h : n ≤ 64) : ∃ y, lowBits? x n = some y ∧ y.toNat = x.toNat % 2 ^ n := by
  rw [lowBits?]
  split
  case isTrue hn  =>
    obtain rfl := Nat.le_antisymm h hn
    exact ⟨x, rfl, (Nat.mod_eq_of_lt x.toNat_lt).symm⟩
  case isFalse hn =>
    have hlt : 1 <<< n < 2 ^ 64 := by
      rw [Nat.one_shiftLeft]
      exact Nat.pow_lt_pow_right (by decide) (by omega)
    obtain ⟨p, hp, hpn⟩ := shiftLeft?_eq (x := 1) (Nat.lt_of_not_le hn) hlt
    have hpn : p.toNat = 2 ^ n := hpn.trans (Nat.one_shiftLeft n)
    have hle : 1 ≤ p := UInt64.le_iff_toNat_le.2 (hpn ▸ Nat.one_le_two_pow)
    refine ⟨x &&& (p - 1), ?_, ?_⟩
    · rw [hp]
      simp [sub?, hle]
    · rw [UInt64.toNat_and, UInt64.toNat_sub_of_le _ _ hle, hpn]
      exact Nat.and_two_pow_sub_one_eq_mod x.toNat n

theorem sub?_eq {m : Nat} (h : n ≤ m) : sub? m n = some (m - n) :=
  if_pos h

theorem digits_or {b : UInt8} {ds : List Bool}
    (h : digits 8 b.toNat = ds ++ List.replicate k false) (hx : x.toNat < 2 ^ k) :
    digits 8 (b ||| x.toUInt8).toNat = ds ++ digits k x.toNat := by
  have hlen : 8 = ds.length + k := by
    have := congrArg List.length h
    simpa using this
  have hb : b.toNat = number ds <<< k := by
    rw [← number_digits_of_lt b.toNat_lt, h, number_append, ← digits_eq_replicate,
      number_digits_of_lt (Nat.two_pow_pos k), length_digits, Nat.shiftLeft_eq, Nat.add_zero]
  have hx8 : x.toNat < 2 ^ 8 :=
    Nat.lt_of_lt_of_le hx (Nat.pow_le_pow_right (by decide) (by omega))
  rw [UInt8.toNat_or, UInt64.toNat_toUInt8, Nat.mod_eq_of_lt hx8, hb,
    ← Nat.shiftLeft_add_eq_or_of_lt hx, hlen, digits_shiftLeft_add hx, digits_number]

theorem length_of_digits {bytes : Bytes} {ds : List Bool}
    (h : Bytes.digits bytes = ds ++ List.replicate k false) : 8 * bytes.length = ds.length + k := by
  rw [← Bytes.length_digits, h, List.length_append, List.length_replicate]

theorem merge?_eq {bytes : Bytes} {ds : List Bool} (hk : 1 ≤ k) (hk8 : k ≤ 8)
    (h : Bytes.digits bytes = ds ++ List.replicate k false) (hx : x.toNat < 2 ^ k) :
    ∃ bytes', merge? bytes (bytes.length - 1) x.toUInt8 = some bytes' ∧
      Bytes.digits bytes' = ds ++ digits k x.toNat := by
  have hlen := length_of_digits h
  have hne : bytes ≠ [] := by
    rintro rfl
    simp at hlen
    omega
  let front := bytes.dropLast
  let b := bytes.getLast hne
  have hbytes : bytes = front ++ [b] := (List.dropLast_concat_getLast hne).symm
  have hfl : bytes.length = front.length + 1 := by rw [hbytes]; simp
  have hfront : Bytes.digits front <+: ds ++ List.replicate k false := by
    rw [← h, hbytes, Bytes.digits_append]
    exact List.prefix_append ..
  obtain ⟨ds', hds⟩ : Bytes.digits front <+: ds := by
    refine List.prefix_of_prefix_length_le hfront (List.prefix_append ..) ?_
    rw [Bytes.length_digits]
    omega
  have hb : digits 8 b.toNat = ds' ++ List.replicate k false := by
    rw [hbytes, Bytes.digits_append, ← hds, List.append_assoc, List.append_cancel_left_eq] at h
    simpa using h
  refine ⟨front ++ [b ||| x.toUInt8], ?_, ?_⟩
  · rw [merge?, hfl, Nat.add_sub_cancel, hbytes]
    simp
  · rw [Bytes.digits_append, Bytes.digits_cons, Bytes.digits_nil, List.append_nil, digits_or hb hx,
      ← hds, List.append_assoc]

end Words

-- Bytes, and how many of the low bits of the last one are free.
structure Cursor where
  bytes : Bytes := []
  freeBits : Nat := 0
deriving DecidableEq

namespace Cursor

def makeRoom (c : Cursor) : Cursor :=
  if c.freeBits = 0 then { bytes := c.bytes ++ [0], freeBits := 8 } else c

-- Fills the last byte up, or puts in all that is left. What remains is the low end of the element,
-- and its number of bits.
def round? (c : Cursor) (element : UInt64) (left : Nat) : Option (Cursor × UInt64 × Nat) := do
  let c := c.makeRoom
  let last ← sub? c.bytes.length 1
  if c.freeBits < left then
    let left ← sub? left c.freeBits
    let bytes ← merge? c.bytes last (← shiftRight? element left).toUInt8
    return ({ bytes, freeBits := 0 }, ← lowBits? element left, left)
  else
    let freeBits ← sub? c.freeBits left
    let bytes ← merge? c.bytes last (← shiftLeft? element freeBits).toUInt8
    return ({ bytes, freeBits }, element, 0)

theorem makeRoom_pos (c : Cursor) : 0 < c.makeRoom.freeBits := by
  rw [makeRoom]
  split
  case isTrue    => exact Nat.succ_pos 7
  case isFalse h => exact Nat.pos_of_ne_zero h

theorem round?_lt {c c' : Cursor} {element element' : UInt64} {left left' : Nat}
    (h : c.round? element left = some (c', element', left')) (hl : left ≠ 0) : left' < left := by
  have hpos := c.makeRoom_pos
  simp only [round?, bind, Option.bind_eq_some_iff] at h
  obtain ⟨last, -, h⟩ := h
  split at h
  case isTrue hlt =>
    simp only [sub?_eq hlt.le, Option.bind_eq_some_iff, Option.some.injEq] at h
    obtain ⟨_, rfl, _, -, bytes, -, _, -, h⟩ := h
    cases h
    omega
  case isFalse    =>
    simp only [Option.bind_eq_some_iff] at h
    obtain ⟨_, -, _, -, bytes, -, h⟩ := h
    cases h
    exact Nat.pos_of_ne_zero hl

def rounds? (c : Cursor) (element : UInt64) (left : Nat) : Option Cursor :=
  if _hl : left = 0 then some c
  else
    match _h : c.round? element left with
    | none => none
    | some (c, element, left') => rounds? c element left'
termination_by left
decreasing_by exact round?_lt _h _hl

-- Appends the `width` lowest bits of `element`.
def put? (c : Cursor) (element : UInt64) (width : Nat) : Option Cursor := do
  c.rounds? (← lowBits? element width) width

def completeLength? (c : Cursor) : Option Nat :=
  if c.freeBits = 0 then some c.bytes.length else sub? c.bytes.length 1

def takeComplete? (c : Cursor) : Option (Bytes × Cursor) := do
  let n ← c.completeLength?
  let _ ← sub? c.bytes.length n
  return (c.bytes.take n, { c with bytes := c.bytes.drop n })

-- The bytes end in zeros where nothing was written yet.
structure Holds (c : Cursor) (ds : List Bool) : Prop where
  free_lt : c.freeBits < 8
  digits  : Bytes.digits c.bytes = ds ++ List.replicate c.freeBits false

variable {c c' : Cursor} {ds : List Bool} {element : UInt64} {left width : Nat}

theorem Holds.unique (h : c.Holds ds) (h' : c'.Holds ds) : c = c' := by
  have hf : c.freeBits = c'.freeBits := by
    have hl := length_of_digits h.digits
    have hl' := length_of_digits h'.digits
    have hc := h.free_lt
    have hc' := h'.free_lt
    omega
  have hb : c.bytes = c'.bytes := Bytes.digits_injective (by rw [h.digits, h'.digits, hf])
  cases c
  cases c'
  cases hf
  cases hb
  rfl

theorem Holds.makeRoom (h : c.Holds ds) : c.makeRoom.freeBits ≤ 8 ∧
    Bytes.digits c.makeRoom.bytes = ds ++ List.replicate c.makeRoom.freeBits false := by
  rw [Cursor.makeRoom]
  split
  case isTrue hf =>
    refine ⟨le_rfl, ?_⟩
    rw [Bytes.digits_append, h.digits, hf]
    simp
    rfl
  case isFalse   => exact ⟨h.free_lt.le, h.digits⟩

theorem Holds.length_makeRoom (h : c.Holds ds) : 1 ≤ c.makeRoom.bytes.length := by
  have hl := length_of_digits h.makeRoom.right
  have := c.makeRoom_pos
  omega

theorem Holds.round?_of_lt (h : c.Holds ds) (hl : c.makeRoom.freeBits < left) (h64 : left ≤ 64)
    (he : element.toNat < 2 ^ left) : ∃ c' element',
      c.round? element left = some (c', element', left - c.makeRoom.freeBits) ∧
      c'.Holds (ds ++ Bits.digits c.makeRoom.freeBits
        (element.toNat >>> (left - c.makeRoom.freeBits))) ∧
      element'.toNat = element.toNat % 2 ^ (left - c.makeRoom.freeBits) := by
  have hpos := c.makeRoom_pos
  obtain ⟨h8, hd⟩ := h.makeRoom
  generalize hf : c.makeRoom.freeBits = f at *
  obtain ⟨x, hx, hxn⟩ := shiftRight?_eq (x := element) (n := left - f) (by omega)
  have hlt : x.toNat < 2 ^ f := by
    rw [hxn, Nat.shiftRight_eq_div_pow, Nat.div_lt_iff_lt_mul (Nat.two_pow_pos _), ← pow_add]
    rwa [Nat.add_sub_cancel' hl.le]
  obtain ⟨bytes, hb, hbd⟩ := merge?_eq hpos h8 hd hlt
  obtain ⟨element', he', hen⟩ := lowBits?_eq (x := element) (n := left - f) (by omega)
  refine ⟨{ bytes, freeBits := 0 }, element', ?_, ⟨Nat.succ_pos 7, ?_⟩, hen⟩
  · simp only [round?, hf, bind, Option.bind, sub?_eq h.length_makeRoom, if_pos hl, sub?_eq hl.le,
      hx, hb, he']
    rfl
  · rw [hbd, hxn]
    simp

theorem Holds.round?_of_le (h : c.Holds ds) (hl : left ≤ c.makeRoom.freeBits) (h0 : left ≠ 0)
    (he : element.toNat < 2 ^ left) : ∃ c', c.round? element left = some (c', element, 0) ∧
      c'.Holds (ds ++ Bits.digits left element.toNat) := by
  have hpos := c.makeRoom_pos
  obtain ⟨h8, hd⟩ := h.makeRoom
  generalize hf : c.makeRoom.freeBits = f at *
  have hlt : element.toNat <<< (f - left) < 2 ^ f := by
    rw [Nat.shiftLeft_eq]
    calc
      element.toNat * 2 ^ (f - left) < 2 ^ left * 2 ^ (f - left) :=
        Nat.mul_lt_mul_of_pos_right he (Nat.two_pow_pos _)
      _ = 2 ^ f                                                  := by
        rw [← pow_add, Nat.add_sub_cancel' hl]
  have h64 : element.toNat <<< (f - left) < 2 ^ 64 :=
    hlt.trans_le (Nat.pow_le_pow_right (by decide) (by omega))
  obtain ⟨x, hx, hxn⟩ := shiftLeft?_eq (x := element) (by omega : f - left < 64) h64
  obtain ⟨bytes, hb, hbd⟩ := merge?_eq hpos h8 hd (hxn ▸ hlt)
  refine ⟨{ bytes, freeBits := f - left }, ?_, ⟨by show f - left < 8; omega, ?_⟩⟩
  · simp only [round?, hf, bind, Option.bind, sub?_eq h.length_makeRoom, if_neg (Nat.not_lt.2 hl),
      sub?_eq hl, hx, hb]
    rfl
  · have hz := digits_shiftLeft_add (j := left) (m := element.toNat) (Nat.two_pow_pos (f - left))
    rw [Nat.add_zero, Nat.add_sub_cancel' hl, digits_eq_replicate] at hz
    rw [hbd, hxn, hz, List.append_assoc]

theorem Holds.rounds? (h : c.Holds ds) (h64 : left ≤ 64) (he : element.toNat < 2 ^ left) :
    ∃ c', c.rounds? element left = some c' ∧ c'.Holds (ds ++ Bits.digits left element.toNat) := by
  induction left using Nat.strong_induction_on generalizing c ds element
  case h left hi =>
    by_cases h0 : left = 0
    case pos =>
      refine ⟨c, by rw [Cursor.rounds?, dif_pos h0], ?_⟩
      rwa [h0, digits_zero, List.append_nil]
    case neg =>
      have hnext {c' : Cursor} {element' : UInt64} {left' : Nat}
          (hr : c.round? element left = some (c', element', left')) :
          c.rounds? element left = c'.rounds? element' left' := by
        rw [Cursor.rounds?, dif_neg h0]
        split
        case h_1 hn => cases hn.symm.trans hr
        case h_2 hn => cases hn.symm.trans hr; rfl
      by_cases hl : c.makeRoom.freeBits < left
      case pos =>
        -- What is left of the element is its low end.
        obtain ⟨c', element', hr, hc, he'⟩ := h.round?_of_lt hl h64 he
        have hlt : left - c.makeRoom.freeBits < left :=
          Nat.sub_lt (Nat.pos_of_ne_zero h0) c.makeRoom_pos
        obtain ⟨c'', hs, hc'⟩ := hi _ hlt hc (by omega)
          (he' ▸ Nat.mod_lt _ (Nat.two_pow_pos _))
        refine ⟨c'', (hnext hr).trans hs, ?_⟩
        rwa [he', digits_mod le_rfl, List.append_assoc, ← digits_add,
          Nat.add_sub_cancel' hl.le] at hc'
      case neg =>
        obtain ⟨c', hr, hc⟩ := h.round?_of_le (Nat.le_of_not_lt hl) h0 he
        refine ⟨c', (hnext hr).trans ?_, hc⟩
        rw [Cursor.rounds?, dif_pos rfl]

theorem Holds.put? (h : c.Holds ds) (element : UInt64) (hw : width ≤ 64) :
    ∃ c', c.put? element width = some c' ∧ c'.Holds (ds ++ Bits.digits width element.toNat) := by
  obtain ⟨x, hx, hxn⟩ := lowBits?_eq (x := element) hw
  obtain ⟨c', hc, hd⟩ := h.rounds? hw (hxn ▸ Nat.mod_lt _ (Nat.two_pow_pos width))
  refine ⟨c', ?_, ?_⟩
  · rw [Cursor.put?, hx]
    exact hc
  · rwa [hxn, digits_mod le_rfl] at hd

def ofWriter (w : Writer) : Cursor :=
  { bytes := w.bytes, freeBits := w.freeBits }

theorem ofWriter_holds (w : Writer) : (ofWriter w).Holds w.digits :=
  ⟨w.freeBits_lt, w.digits_bytes⟩

theorem put?_ofWriter (w : Writer) (element : UInt64) (h : width ≤ 64) :
    (ofWriter w).put? element width = some (ofWriter (w.put element width)) := by
  obtain ⟨c, hc, hd⟩ := (ofWriter_holds w).put? element h
  have hw := ofWriter_holds (w.put element width)
  rw [Writer.digits_put] at hw
  rw [hc, hd.unique hw]

theorem completeLength?_ofWriter (w : Writer) :
    (ofWriter w).completeLength? = some w.completeLength := by
  have hl : w.bytes.length = w.completeLength + if w.used = 0 then 0 else 1 := w.length_bytes
  rw [completeLength?, ofWriter]
  by_cases hu : w.used = 0
  case pos =>
    rw [if_pos hu] at hl
    rw [if_pos (Writer.freeBits_eq_zero_iff.2 hu), hl, Nat.add_zero]
  case neg =>
    rw [if_neg hu] at hl
    rw [if_neg (mt Writer.freeBits_eq_zero_iff.1 hu), hl, sub?_eq (Nat.le_add_left ..),
      Nat.add_sub_cancel]

theorem takeComplete?_ofWriter (w : Writer) : (ofWriter w).takeComplete? =
    some (w.takeComplete.1, ofWriter w.takeComplete.2) := by
  have hb : (ofWriter w).bytes = w.takeComplete.1 ++ w.takeComplete.2.bytes := rfl
  have hl : w.completeLength = w.takeComplete.1.length := Array.length_toList.symm
  have hle : w.completeLength ≤ (ofWriter w).bytes.length := by rw [hb, hl]; simp
  rw [takeComplete?, completeLength?_ofWriter]
  simp only [bind, Option.bind, sub?_eq hle]
  rw [hb, hl, List.take_left, List.drop_left]
  rfl

end Cursor
end BitPacking.Bits
