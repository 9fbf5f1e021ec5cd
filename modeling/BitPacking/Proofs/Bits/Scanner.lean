import BitPacking.Proofs.Bits.Cursor
import BitPacking.Proofs.Bits.Reader

namespace BitPacking.Bits

section Words

def byteShiftRight? (x : UInt8) (n : Nat) : Option UInt8 :=
  if n < 8 then some (x >>> .ofNat n) else none

def shortShiftLeft? (x : UInt16) (n : Nat) : Option UInt16 :=
  if n < 16 then some (x <<< .ofNat n) else none

-- A byte with ones in its `n` lowest bits.
def mask? (n : Nat) : Option UInt8 := do
  return (← sub? (← shortShiftLeft? 1 n) 1).toUInt8

-- The `n` bits of a byte above its `k` lowest ones.
def chunk? (b : UInt8) (k n : Nat) : Option UInt8 := do
  return (← byteShiftRight? b k) &&& (← mask? n)

-- A word moved up by `n` bits, with a byte in the place that is then free. What is moved out at the
-- other end is lost.
def shiftIn? (x : UInt64) (n : Nat) (b : UInt8) : Option UInt64 := do
  return (← shiftLeft? x n) ||| b.toUInt64

theorem mask?_eq : ∀ n ≤ 8, mask? n = some (.ofNat (2 ^ n - 1)) := by
  decide

theorem chunk?_eq {k n : Nat} (b : UInt8) (hk : k < 8) (hn : n ≤ 8) :
    ∃ c, chunk? b k n = some c ∧ c.toNat = b.toNat >>> k % 2 ^ n := by
  have hshift : (UInt8.ofNat k).toNat % 8 = k := by
    rw [UInt8.toNat_ofNat_of_lt' (Nat.lt_trans hk (by decide)), Nat.mod_eq_of_lt hk]
  have hmask : 2 ^ n - 1 < 2 ^ 8 :=
    Nat.lt_of_lt_of_le (Nat.pred_lt (Nat.two_pow_pos n).ne') (Nat.pow_le_pow_right Nat.two_pos hn)
  refine ⟨(b >>> .ofNat k) &&& .ofNat (2 ^ n - 1), ?_, ?_⟩
  · simp [chunk?, byteShiftRight?, hk, mask?_eq n hn]
  · rw [UInt8.toNat_and, UInt8.toNat_shiftRight, hshift, UInt8.toNat_ofNat_of_lt' hmask,
      Nat.and_two_pow_sub_one_eq_mod]

theorem shiftLeft_add_mod (n m j k : Nat) :
    n <<< (j + k) + m % 2 ^ (j + k) = (n <<< j + m >>> k % 2 ^ j) <<< k + m % 2 ^ k := by
  simp only [Nat.shiftLeft_eq, Nat.shiftRight_eq_div_pow]
  rw [pow_add, Nat.mul_comm (2 ^ j), Nat.mod_mul]
  ring

-- Words keep the last 64 digits of the numbers that they stand for.
theorem shiftIn?_eq {n m : Nat} {b : UInt8} (hn : n ≤ 8) (hb : b.toNat < 2 ^ n) :
    shiftIn? (.ofNat m) n b = some (.ofNat (m <<< n + b.toNat)) := by
  have hlt : n < 64 := by omega
  have hb64 : b.toNat % 2 ^ 64 = b.toNat :=
    Nat.mod_eq_of_lt (Nat.lt_trans b.toNat_lt (by decide))
  have hm : (m % 2 ^ 64) <<< n % 2 ^ 64 = m <<< n % 2 ^ 64 := by
    simp [Nat.shiftLeft_eq, Nat.mul_mod]
  have hx : UInt64.ofNat m <<< UInt64.ofNat n ||| b.toUInt64 = .ofNat (m <<< n + b.toNat) := by
    apply UInt64.toNat_inj.1
    rw [UInt64.toNat_or, UInt64.toNat_shiftLeft, toNat_ofNat_of_lt hlt, UInt64.toNat_ofNat',
      UInt64.toNat_ofNat', UInt8.toNat_toUInt64, hm, Nat.shiftLeft_add_eq_or_of_lt hb,
      Nat.or_mod_two_pow, hb64]
  simp [shiftIn?, shiftLeft?, hlt, hx]

end Words

structure Scanner where
  source   : Source
  -- The bytes of the last block, in front of what is left of those before it.
  buffer   : Bytes
  filled   : Nat := 0
  position : Nat := 0
  current  : UInt8 := 0
  -- How many of the low bits of the current byte are unread.
  unread   : Nat := 0

namespace Scanner

def ofSource (source : Source) (blockSize : Nat := Bytes.blockSize) : Scanner :=
  { source, buffer := List.replicate (max blockSize 1) 0 }

def refill (c : Scanner) : Except IoError Bool × Scanner :=
  match c.source.readOn c.buffer.length with
  | (.data (b :: bs), source) =>
    let block := b :: bs
    (.ok true,
      { c with
        source
        buffer := block ++ c.buffer.drop block.length
        filled := block.length
        position := 0 })
  | (.failure e, source) => (.error e, { c with source })
  | (_, source) => (.ok false, { c with source })

def nextByte? (c : Scanner) : Option (Except IoError (Option UInt8) × Scanner) :=
  match if c.filled ≤ c.position then c.refill else (.ok true, c) with
  | (.ok true, c) => do
    return (.ok (some (← c.buffer[c.position]?)), { c with position := c.position + 1 })
  | (.ok false, c) => some (.ok none, c)
  | (.error e, c) => some (.error e, c)

-- Goes on to the next byte where all bits of the current one are read.
def load? (c : Scanner) : Option (Except IoError Bool × Scanner) :=
  if c.unread = 0 then
    match c.nextByte? with
    | some (.ok (some b), c) => some (.ok true, { c with current := b, unread := 8 })
    | some (.ok none, c) => some (.ok false, c)
    | some (.error e, c) => some (.error e, c)
    | none => none
  else some (.ok true, c)

-- Takes what the current byte has of an element of which `left` bits are missing. The element so
-- far is `value`.
def take? (c : Scanner) (value : UInt64) (left : Nat) : Option (UInt64 × Nat × Scanner) := do
  let n := min left c.unread
  let rest ← sub? c.unread n
  let value ← shiftIn? value n (← chunk? c.current rest n)
  return (value, ← sub? left n, { c with unread := rest })

theorem load?_pos {c c' : Scanner} (h : c.load? = some (.ok true, c')) : 0 < c'.unread := by
  rw [load?] at h
  split at h
  case isTrue     =>
    split at h <;> cases h
    exact Nat.succ_pos 7
  case isFalse hu =>
    cases h
    exact Nat.pos_of_ne_zero hu

theorem take?_lt {c c' : Scanner} {value value' : UInt64} {left left' : Nat}
    (h : c.take? value left = some (value', left', c')) (hu : 0 < c.unread) (hl : left ≠ 0) :
    left' < left := by
  have hn : 0 < min left c.unread := Nat.lt_min.2 ⟨Nat.pos_of_ne_zero hl, hu⟩
  simp only [take?, bind, Option.bind_eq_some_iff, sub?_eq (Nat.min_le_left left c.unread),
    Option.some.injEq] at h
  obtain ⟨rest, -, chunk, -, word, -, _, rfl, h⟩ := h
  cases h
  exact Nat.sub_lt (Nat.pos_of_ne_zero hl) hn

def rounds? (c : Scanner) (value : UInt64) (left : Nat) :
    Option (Except IoError (Option UInt64) × Scanner) :=
  if _hl : left = 0 then some (.ok (some value), c)
  else
    match _h : c.load? with
    | some (.ok true, c) =>
      match _ht : c.take? value left with
      | some (value, left', c) => c.rounds? value left'
      | none => none
    | some (.ok false, c) => some (.ok none, c)
    | some (.error e, c) => some (.error e, c)
    | none => none
termination_by left
decreasing_by exact take?_lt _ht (load?_pos _h) _hl

def readBits? (c : Scanner) (width : Nat) : Option (Except IoError (Option UInt64) × Scanner) :=
  c.rounds? 0 width

section Rounds

variable {c c' c'' : Scanner} {value value' : UInt64} {left left' : Nat}

theorem load?_of_pos (h : 0 < c.unread) : c.load? = some (.ok true, c) :=
  if_neg h.ne'

theorem rounds?_zero (c : Scanner) (value : UInt64) :
    c.rounds? value 0 = some (.ok (some value), c) := by
  rw [rounds?, dif_pos rfl]

theorem rounds?_of_take (hl : left ≠ 0) (h : c.load? = some (.ok true, c'))
    (ht : c'.take? value left = some (value', left', c'')) :
    c.rounds? value left = c''.rounds? value' left' := by
  rw [rounds?, dif_neg hl]
  split
  case h_1 h₁ =>
    cases h₁.symm.trans h
    split
    case h_1 ht₁ => cases ht₁.symm.trans ht; rfl
    case h_2 ht₁ => cases ht₁.symm.trans ht
  all_goals cases ‹c.load? = _›.symm.trans h

theorem rounds?_of_end (hl : left ≠ 0) (h : c.load? = some (.ok false, c')) :
    c.rounds? value left = some (.ok none, c') := by
  rw [rounds?, dif_neg hl]
  split
  case h_2 h₁ => cases h₁.symm.trans h; rfl
  all_goals cases ‹c.load? = _›.symm.trans h

theorem rounds?_of_error {e : IoError} (hl : left ≠ 0) (h : c.load? = some (.error e, c')) :
    c.rounds? value left = some (.error e, c') := by
  rw [rounds?, dif_neg hl]
  split
  case h_3 h₁ => cases h₁.symm.trans h; rfl
  all_goals cases ‹c.load? = _›.symm.trans h

end Rounds
end Scanner

namespace Reader

def complete (r : Reader) (missing width : Nat) : Except IoError (Option UInt64) × Reader :=
  match r.fill missing with
  | (.ok true, r) => (.ok (some (.ofNat (r.takeBits width).1)), (r.takeBits width).2)
  | (.ok false, r) => (.ok none, r)
  | (.error e, r) => (.error e, r)

theorem readBits_eq_complete (r : Reader) (width : Nat) :
    r.readBits width = r.complete ((width - r.unread + 7) / 8) width :=
  rfl

theorem complete_succ (r : Reader) (missing width : Nat) : r.complete (missing + 1) width =
    match r.nextByte with
    | (.ok (some b), r) => (r.append b).complete missing width
    | (.ok none, r) => (.ok none, r.dropBits)
    | (.error e, r) => (.error e, r.dropBits) := by
  rw [complete, fill]
  rcases r.nextByte with ⟨e | _ | b, r⟩ <;> rfl

end Reader

namespace Scanner

-- Where a scanner stands when it has read `taken` bits of an element, the number `n`. A reader still
-- has them in front of its unread ones.
structure Follows (c : Scanner) (taken n : Nat) (r : Reader) : Prop where
  source    : r.source = c.source
  blockSize : r.blockSize = c.buffer.length
  filled_le : c.filled ≤ c.buffer.length
  block     : r.block = (c.buffer.take c.filled).drop c.position
  unread_le : c.unread ≤ 8
  unread    : r.unread = taken + c.unread
  current   : r.current = n <<< c.unread + c.current.toNat % 2 ^ c.unread

variable {c : Scanner} {r : Reader} {taken n left width : Nat}

theorem ofSource_follows (source : Source) (blockSize : Nat) :
    (ofSource source blockSize).Follows 0 0 (.ofSource source blockSize) where
  source    := rfl
  blockSize := by simp [ofSource, Reader.ofSource]
  filled_le := Nat.zero_le _
  block     := rfl
  unread_le := Nat.zero_le 8
  unread    := rfl
  current   := by simp [ofSource, Reader.ofSource, Nat.mod_one]

namespace Follows

-- A byte of the block is taken out of the buffer.
theorem advance {b : UInt8} {block : Bytes} (h : c.Follows taken n r) (hb : r.block = b :: block) :
    c.position < c.filled ∧ c.buffer[c.position]? = some b ∧
      { c with position := c.position + 1 }.Follows taken n { r with block } := by
  have hd : (c.buffer.take c.filled).drop c.position = b :: block := h.block.symm.trans hb
  have hlt : c.position < (c.buffer.take c.filled).length := by
    by_contra hge
    rw [List.drop_eq_nil_of_le (Nat.le_of_not_lt hge)] at hd
    cases hd
  have hf : c.position < c.filled := hlt.trans_le (List.length_take_le ..)
  refine ⟨hf, ?_, { h with block := ?_ }⟩
  case refine_1 =>
    rw [← List.getElem?_take_of_lt hf, ← List.head?_drop, hd]
    rfl
  case refine_2 =>
    rw [← List.drop_drop, hd]
    rfl

theorem filled_le_position (h : c.Follows taken n r) (hb : r.block = []) :
    c.filled ≤ c.position := by
  have hd := List.drop_eq_nil_iff.1 (h.block.symm.trans hb)
  rwa [List.length_take_of_le h.filled_le] at hd

-- The next block takes the place of the one before it.
theorem refill {source : Source} {b : UInt8} {bs : Bytes} (h : c.Follows taken n r)
    (hr : c.source.readOn c.buffer.length = (.data (b :: bs), source)) :
    ∃ c', c.refill = (.ok true, c') ∧ c'.unread = c.unread ∧
      c'.Follows taken n { r with source, block := b :: bs } := by
  have hle : (b :: bs).length ≤ c.buffer.length := Source.readOn_data_length_le hr
  have hlen : ((b :: bs) ++ c.buffer.drop (b :: bs).length).length = c.buffer.length := by
    rw [List.length_append, List.length_drop, Nat.add_sub_cancel' hle]
  simp only [Scanner.refill, hr]
  refine ⟨_, rfl, rfl, { h with source := rfl, blockSize := ?_, filled_le := ?_, block := ?_ }⟩
  · exact h.blockSize.trans hlen.symm
  · exact hle.trans_eq hlen.symm
  · rw [List.drop_zero, List.take_left]

theorem nextByte? (h : c.Follows taken n r) : ∃ c', c.nextByte? = some (r.nextByte.1, c') ∧
    c'.unread = c.unread ∧ c'.Follows taken n r.nextByte.2 := by
  cases hb : r.block
  case cons b block =>
    obtain ⟨hlt, hget, hf⟩ := h.advance hb
    have hn : r.nextByte = (.ok (some b), { r with block }) := by simp only [Reader.nextByte, hb]
    rw [hn]
    refine ⟨{ c with position := c.position + 1 }, ?_, rfl, hf⟩
    simp [Scanner.nextByte?, hlt.not_ge, hget]
  case nil          =>
    have hp := h.filled_le_position hb
    have hs : r.source.readOn r.blockSize = c.source.readOn c.buffer.length := by
      rw [h.source, h.blockSize]
    rcases hr : c.source.readOn c.buffer.length with ⟨(_ | ⟨b, bs⟩) | _ | _ | e, source⟩
    case data.cons =>
      have hn : r.nextByte = (.ok (some b), { r with source, block := bs }) := by
        simp only [Reader.nextByte, hb, hs, hr]
      obtain ⟨c', hc, hu, hf⟩ := h.refill hr
      obtain ⟨_, hget, hf'⟩ := hf.advance rfl
      rw [hn]
      refine ⟨{ c' with position := c'.position + 1 }, ?_, hu, hf'⟩
      simp [Scanner.nextByte?, hp, hc, hget]
    -- There is no next block, and the last one stays where it is.
    all_goals
      refine ⟨{ c with source }, ?_, rfl, ?_⟩
      · simp [Scanner.nextByte?, Scanner.refill, Reader.nextByte, hp, hb, hs, hr]
      · simp only [Reader.nextByte, hb, hs, hr]
        exact { h with source := rfl, block := hb ▸ h.block }

theorem loaded (h : c.Follows taken n r) (hu : c.unread = 0) (b : UInt8) :
    { c with current := b, unread := 8 }.Follows taken n (r.append b) := by
  refine { h with unread_le := le_rfl, unread := ?unread, current := ?current }
  case unread  => simp [Reader.append, h.unread, hu]
  case current => simp [Reader.append, h.current, hu, Nat.mod_one, Nat.mod_eq_of_lt b.toNat_lt]

theorem lost (h : c.Follows taken n r) (hu : c.unread = 0) : c.Follows 0 0 r.dropBits := by
  refine { h with unread := ?unread, current := ?current }
  case unread  => simp [Reader.dropBits, hu]
  case current => simp [Reader.dropBits, hu, Nat.mod_one]

-- When no bits are missing, the reader has the whole element in front of the bits that are unread.
theorem done (h : c.Follows taken n r) :
    (r.takeBits taken).1 = n ∧ c.Follows 0 0 (r.takeBits taken).2 := by
  have hu : r.unread - taken = c.unread := by rw [h.unread, Nat.add_sub_cancel_left]
  have hlt : c.current.toNat % 2 ^ c.unread < 2 ^ c.unread := Nat.mod_lt _ (Nat.two_pow_pos _)
  constructor
  case left  =>
    simp only [Reader.takeBits, hu, h.current]
    rw [Nat.shiftLeft_eq, Nat.shiftRight_eq_div_pow, Nat.add_comm,
      Nat.add_mul_div_right _ _ (Nat.two_pow_pos _), Nat.div_eq_of_lt hlt, Nat.zero_add]
  case right =>
    refine { h with unread := ?unread, current := ?current }
    case unread  => simp [Reader.takeBits, hu]
    case current => simp [Reader.takeBits, hu, h.current, Nat.shiftLeft_eq]

theorem take? (h : c.Follows taken n r) (hu : 0 < c.unread) (hl : left ≠ 0) : ∃ m c',
    c.take? (.ofNat n) left = some (.ofNat m, left - min left c.unread, c') ∧
      c'.unread = c.unread - min left c.unread ∧
      c'.Follows (taken + min left c.unread) m r := by
  have h8 := h.unread_le
  have hle := Nat.min_le_right left c.unread
  have hpos : 0 < min left c.unread := Nat.lt_min.2 ⟨Nat.pos_of_ne_zero hl, hu⟩
  have hsub := sub?_eq (Nat.min_le_left left c.unread)
  generalize ht : min left c.unread = t at *
  have hut : c.unread = t + (c.unread - t) := (Nat.add_sub_cancel' hle).symm
  have ⟨chunk, hc, hn⟩ := chunk?_eq (k := c.unread - t) (n := t) c.current (by omega) (by omega)
  have hlt : chunk.toNat < 2 ^ t := hn ▸ Nat.mod_lt _ (Nat.two_pow_pos t)
  refine ⟨n <<< t + chunk.toNat, { c with unread := c.unread - t }, ?_, rfl, ?_⟩
  · simp [Scanner.take?, ht, sub?_eq hle, hc, shiftIn?_eq (by omega) hlt, hsub]
  · refine { h with unread_le := (Nat.sub_le ..).trans h8, unread := ?unread, current := ?current }
    case unread  => show r.unread = taken + t + (c.unread - t); rw [h.unread]; omega
    case current =>
      have hx := shiftLeft_add_mod n c.current.toNat t (c.unread - t)
      rw [← hut] at hx
      rw [h.current, hx, hn]

theorem round {c₁ : Scanner} (h : c₁.Follows taken n r) (hu : 0 < c₁.unread) (hl : left ≠ 0)
    (hc : c.load? = some (.ok true, c₁)) :
    ∃ (c' : Scanner) (taken' m left' : Nat), left' < left ∧
      c.rounds? (.ofNat n) left = c'.rounds? (.ofNat m) left' ∧ c'.Follows taken' m r ∧
      taken' + left' = taken + left ∧ left' - c'.unread = left - c₁.unread := by
  have ⟨m, c', ht, hu', h'⟩ := h.take? hu hl
  refine ⟨c', _, m, _, take?_lt ht hu hl, rounds?_of_take hl hc ht, h', ?_, ?_⟩ <;> omega

-- The scanner gets one byte after the other, and the reader all that the element needs.
theorem rounds? (h : c.Follows taken n r) (left : Nat) : ∃ c',
    c.rounds? (.ofNat n) left =
      some ((r.complete ((left - c.unread + 7) / 8) (taken + left)).1, c') ∧
      c'.Follows 0 0 (r.complete ((left - c.unread + 7) / 8) (taken + left)).2 := by
  -- Each round takes at least one of the bits that are missing, and the reader has all of them
  -- ahead.
  induction left using Nat.strong_induction_on generalizing c r taken n
  case h left hi =>
    by_cases hl : left = 0
    case pos =>
      have ⟨hn, hd⟩ := h.done
      have hm : (left - c.unread + 7) / 8 = 0 := by omega
      rw [hm, hl, rounds?_zero, ← hn]
      exact ⟨c, rfl, hd⟩
    case neg =>
      by_cases hu : c.unread = 0
      case neg =>
        have hpos := Nat.pos_of_ne_zero hu
        have ⟨c₁, taken', m, left', hlt, hr, h₁, hw, hm⟩ := h.round hpos hl (load?_of_pos hpos)
        rw [hr, ← hw, ← hm]
        exact hi left' hlt h₁
      case pos =>
        have ⟨c₁, hn, hu₁, h₁⟩ := h.nextByte?
        have hm : (left - c.unread + 7) / 8 = (left - 8 + 7) / 8 + 1 := by omega
        rw [hm, Reader.complete_succ]
        rw [hu] at hu₁
        rcases hx : r.nextByte with ⟨e | _ | b, r₁⟩
        all_goals rw [hx] at hn h₁
        case error   =>
          have hload : c.load? = some (.error e, c₁) := by simp [load?, hu, hn]
          rw [rounds?_of_error hl hload]
          exact ⟨c₁, rfl, h₁.lost hu₁⟩
        case ok.none =>
          have hload : c.load? = some (.ok false, c₁) := by simp [load?, hu, hn]
          rw [rounds?_of_end hl hload]
          exact ⟨c₁, rfl, h₁.lost hu₁⟩
        case ok.some =>
          have hload : c.load? = some (.ok true, { c₁ with current := b, unread := 8 }) := by
            simp [load?, hu, hn]
          have ⟨c', taken', m, left', hlt, hr, h', hw, hm⟩ :=
            (h₁.loaded hu₁ b).round (Nat.succ_pos 7) hl hload
          rw [hr, ← hw, ← hm]
          exact hi left' hlt h'

end Follows

-- Between elements a scanner and its reader stand alike, and they stay so.
theorem readBits?_eq (h : c.Follows 0 0 r) (width : Nat) : ∃ c',
    c.readBits? width = some ((r.readBits width).1, c') ∧ c'.Follows 0 0 (r.readBits width).2 := by
  have hu : r.unread = c.unread := h.unread.trans (Nat.zero_add _)
  have hx := h.rounds? width
  rwa [← hu, Nat.zero_add, ← Reader.readBits_eq_complete] at hx

end Scanner
end BitPacking.Bits
