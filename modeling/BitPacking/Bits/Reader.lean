import BitPacking.Source

namespace BitPacking.Bits

structure Reader where
  source : Source
  blockSize : Nat
  blockSize_pos : 0 < blockSize
  block : Bytes := []
  current : Nat := 0
  unread : Nat := 0
  current_lt : current < 1 <<< unread

namespace Reader

theorem noBits_lt : 0 < 1 <<< 0 :=
  Nat.one_pos

def ofSource (source : Source) (blockSize : Nat := Bytes.blockSize) : Reader :=
  { source
    blockSize := max blockSize 1
    blockSize_pos := Nat.le_max_right ..
    current_lt := noBits_lt }

-- A read gives `none` where the input has ended.
def nextByte (r : Reader) : Except IoError (Option UInt8) × Reader :=
  match r.block with
  | b :: block => (.ok (some b), { r with block })
  | [] =>
    match r.source.readOn r.blockSize with
    | (.data (b :: block), source) => (.ok (some b), { r with source, block })
    | (.failure e, source) => (.error e, { r with source })
    | (_, source) => (.ok none, { r with source })

def readBytes (r : Reader) : (n : Nat) → (Bytes × Option IoError) × Reader
  | 0 => (([], none), r)
  | n + 1 =>
    match r.nextByte with
    | (.ok (some b), r) =>
      let ((bytes, failure), r) := r.readBytes n
      ((b :: bytes, failure), r)
    | (.ok none, r) => (([], none), r)
    | (.error e, r) => (([], some e), r)

theorem append_lt {n k : Nat} (h : n < 1 <<< k) (b : UInt8) :
    (n <<< 8) + b.toNat < 1 <<< (k + 8) := by
  have := b.toNat_lt
  rw [Nat.shiftLeft_add]
  omega

def append (r : Reader) (b : UInt8) : Reader :=
  { r with
    current := (r.current <<< 8) + b.toNat
    unread := r.unread + 8
    current_lt := append_lt r.current_lt b }

def dropBits (r : Reader) : Reader :=
  { r with current := 0, unread := 0, current_lt := noBits_lt }

-- Appends `n` bytes to the unread bits. Where the input falls short, the bits are lost.
def fill (r : Reader) : (n : Nat) → Except IoError Bool × Reader
  | 0 => (.ok true, r)
  | n + 1 =>
    match r.nextByte with
    | (.ok (some b), r) => (r.append b).fill n
    | (.ok none, r) => (.ok false, r.dropBits)
    | (.error e, r) => (.error e, r.dropBits)

def takeBits (r : Reader) (width : Nat) : Nat × Reader :=
  let rest := r.unread - width
  (r.current >>> rest,
    { r with
      current := r.current % (1 <<< rest)
      unread := rest
      current_lt := Bytes.mod_one_shiftLeft_lt .. })

-- Reads an element of `width` bits, of which the last 64 count.
def readBits (r : Reader) (width : Nat) : Except IoError (Option UInt64) × Reader :=
  match r.fill ((width - r.unread + 7) / 8) with
  | (.ok true, r) =>
    let (n, r) := r.takeBits width
    (.ok (some (.ofNat n)), r)
  | (.ok false, r) => (.ok none, r)
  | (.error e, r) => (.error e, r)

def available (r : Reader) : Nat :=
  r.unread + 8 * (r.block.length + r.source.size)

theorem nextByte_some {r r' : Reader} {b : UInt8} (h : r.nextByte = (.ok (some b), r')) :
    r'.unread = r.unread ∧ r'.current = r.current ∧ r'.available + 8 = r.available := by
  simp only [nextByte] at h
  split at h
  · next hb => cases h; simp [available, hb]; omega
  next hb =>
    split at h <;> cases h
    next hs =>
      have := Source.readOn_size hs
      simp [available, hb, Source.Answer.bytes] at *; omega

theorem fill_true {r r' : Reader} {n : Nat} (h : r.fill n = (.ok true, r')) :
    r'.unread = r.unread + 8 * n ∧ r'.available = r.available := by
  fun_induction fill r n with
  | case1 => cases h; simp
  | case2 r n b r₁ hb ih =>
    have := ih h
    have := nextByte_some hb
    simp [available, append] at *; omega
  | case3 => cases h
  | case4 => cases h

theorem readBits_available {r r' : Reader} {width : Nat} {v : UInt64}
    (h : r.readBits width = (.ok (some v), r')) : r'.available + width = r.available := by
  simp only [readBits] at h
  split at h <;> cases h
  next hf =>
    have := fill_true hf
    simp [available, takeBits] at *; omega

end Reader
end BitPacking.Bits
