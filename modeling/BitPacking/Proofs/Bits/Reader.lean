import BitPacking.Bits.Reader
import BitPacking.Proofs.Bits.Digits
import BitPacking.Proofs.Source

namespace BitPacking.Bits.Reader

def bytes (r : Reader) : Bytes :=
  r.block ++ r.source.supplied

def digits (r : Reader) : List Bool :=
  Bits.digits r.unread r.current ++ Bytes.digits r.bytes

def ending (r : Reader) : Except IoError Unit :=
  r.source.ending

@[simp]
theorem length_digits (r : Reader) : r.digits.length = r.unread + 8 * r.bytes.length := by
  simp [digits]

@[simp]
theorem bytes_ofSource (source : Source) (n : Nat) : (ofSource source n).bytes = source.supplied :=
  rfl

theorem digits_of_unread_eq_zero {r : Reader} (h : r.unread = 0) :
    r.digits = Bytes.digits r.bytes := by
  rw [digits, h, Bits.digits_zero, List.nil_append]

variable {r : Reader} {width n : Nat} {ds : List Bool}

theorem nextByte_of_cons {b : UInt8} {bs : Bytes} (h : r.bytes = b :: bs) :
    ∃ r', r.nextByte = (.ok (some b), r') ∧ r'.bytes = bs ∧ r'.unread = r.unread ∧
      r'.current = r.current ∧ r'.ending = r.ending := by
  unfold nextByte
  split
  case h_1 c block hb =>
    rw [bytes, hb, List.cons_append] at h
    cases h
    exact ⟨_, rfl, rfl, rfl, rfl, rfl⟩
  case h_2 hb         =>
    rw [bytes, hb, List.nil_append] at h
    have ⟨c, block, s', hr, hs, he⟩ :=
      Source.exists_readOn_data r.blockSize_pos (h ▸ List.cons_ne_nil b bs)
    rw [h] at hs
    cases hs
    simp only [hr]
    exact ⟨_, rfl, rfl, rfl, rfl, he⟩

theorem nextByte_of_nil (h : r.bytes = []) : r.nextByte.1 = r.ending.map fun _ => none := by
  have ⟨hb, hs⟩ := List.append_eq_nil_iff.1 h
  have ⟨a, s', hr, ha, he⟩ := Source.exists_readOn_final r.blockSize_pos hs
  rw [ending, he, nextByte]
  cases a
  case data        => cases ha
  case interrupted => cases ha
  all_goals simp only [hb, hr, Source.Answer.outcome]; rfl

theorem readBytes_of_le (h : n ≤ r.bytes.length) :
    ∃ r', r.readBytes n = ((r.bytes.take n, none), r') ∧ r'.bytes = r.bytes.drop n ∧
      r'.unread = r.unread ∧ r'.current = r.current ∧ r'.ending = r.ending := by
  induction n generalizing r
  case zero      => exact ⟨r, rfl, rfl, rfl, rfl, rfl⟩
  case succ n hi =>
    match hb : r.bytes with
    | []      => rw [hb] at h; cases h
    | b :: bs =>
      have ⟨r₁, hr, hb₁, hu, hc, he⟩ := nextByte_of_cons hb
      have ⟨r₂, hr₂, hb₂, hu₂, hc₂, he₂⟩ := hi (r := r₁) (by rw [hb] at h; simpa [hb₁] using h)
      refine ⟨r₂, ?_, ?_, hu₂.trans hu, hc₂.trans hc, he₂.trans he⟩
      · simp only [readBytes, hr, hr₂, hb₁, List.take_succ_cons]
      · rw [hb₂, hb₁, List.drop_succ_cons]

-- Bytes in front of the first element are read as they are, and the rest is left for the elements.
theorem readBytes_ofSource {source : Source} {xs ys : Bytes} (h : source.supplied = xs ++ ys) :
    ∃ r', (ofSource source).readBytes xs.length = ((xs, none), r') ∧
      r'.digits = Bytes.digits ys ∧ r'.ending = source.ending := by
  have hb : (ofSource source).bytes = xs ++ ys := h
  have ⟨r', hr, hb', hu, _, he⟩ :=
    readBytes_of_le (r := ofSource source) (n := xs.length) (by simp [hb])
  rw [hb, List.take_left' rfl] at hr
  rw [hb, List.drop_left' rfl] at hb'
  refine ⟨r', hr, ?_, he⟩
  rw [digits_of_unread_eq_zero hu, hb']

theorem readBytes_of_lt (h : r.bytes.length < n) :
    (r.readBytes n).1 = (r.bytes, match r.ending with | .ok _ => none | .error e => some e) := by
  induction n generalizing r
  case zero      => cases h
  case succ n hi =>
    match hb : r.bytes with
    | []      =>
      have hn := nextByte_of_nil hb
      rw [readBytes]
      generalize r.nextByte = x at hn
      cases x; cases hn
      cases r.ending <;> rfl
    | b :: bs =>
      have ⟨r₁, hr, hb₁, _, _, he⟩ := nextByte_of_cons hb
      have h' := hi (r := r₁) (by rw [hb] at h; simpa [hb₁] using h)
      simp only [readBytes, hr, h', hb₁, he]

theorem digits_append_current {m : Nat} {b : UInt8} {bs : Bytes} (k : Nat) :
    Bits.digits (k + 8) (m <<< 8 + b.toNat) ++ Bytes.digits bs =
      Bits.digits k m ++ Bytes.digits (b :: bs) := by
  rw [digits_shiftLeft_add b.toNat_lt, Bytes.digits_cons, List.append_assoc]

theorem fill_of_le (h : n ≤ r.bytes.length) :
    ∃ r', r.fill n = (.ok true, r') ∧ r'.digits = r.digits ∧ r'.unread = r.unread + 8 * n ∧
      r'.ending = r.ending := by
  induction n generalizing r
  case zero      => exact ⟨r, rfl, rfl, rfl, rfl⟩
  case succ n hi =>
    match hb : r.bytes with
    | []      => rw [hb] at h; cases h
    | b :: bs =>
      have ⟨r₁, hr, hb₁, hu, hc, he⟩ := nextByte_of_cons hb
      have ha : (r₁.append b).bytes = bs := hb₁
      have ⟨r₂, hr₂, hd₂, hu₂, he₂⟩ := hi (r := r₁.append b) (by rw [hb] at h; simpa [ha] using h)
      refine ⟨r₂, ?_, ?_, ?_, he₂.trans he⟩
      · simp only [fill, hr, hr₂]
      · rw [hd₂, digits, digits, ha, hb]
        simp only [append, hu, hc, digits_append_current]
      · rw [hu₂]
        simp only [append, hu]
        ring

theorem fill_of_lt (h : r.bytes.length < n) : (r.fill n).1 = r.ending.map fun _ => false := by
  induction n generalizing r
  case zero      => cases h
  case succ n hi =>
    match hb : r.bytes with
    | []      =>
      have hn := nextByte_of_nil hb
      rw [fill]
      generalize r.nextByte = x at hn
      cases x; cases hn
      cases r.ending <;> rfl
    | b :: bs =>
      have ⟨r₁, hr, hb₁, _, _, he⟩ := nextByte_of_cons hb
      have ha : (r₁.append b).bytes = bs := hb₁
      simp only [fill, hr]
      rw [hi (by rw [hb] at h; simpa [ha] using h), ← he]
      rfl

theorem takeBits_digits (h : width ≤ r.unread) :
    (r.takeBits width).1 = number (r.digits.take width) ∧
      (r.takeBits width).2.digits = r.digits.drop width := by
  have hu : r.unread = width + (r.unread - width) := (Nat.add_sub_cancel' h).symm
  have hd : r.digits = Bits.digits width (r.current >>> (r.unread - width)) ++
      (Bits.digits (r.unread - width) r.current ++ Bytes.digits r.bytes) := by
    rw [digits, hu, digits_add, List.append_assoc, Nat.add_sub_cancel_left]
  constructor
  case left  =>
    have hc : r.current >>> (r.unread - width) < 2 ^ width := by
      have hlt := r.current_lt
      rw [Nat.one_shiftLeft, hu, pow_add, mul_comm] at hlt
      rw [Nat.shiftRight_eq_div_pow]
      exact Nat.div_lt_of_lt_mul hlt
    rw [hd, List.take_left' (Bits.length_digits _ _), number_digits_of_lt hc, takeBits]
  case right =>
    rw [hd, List.drop_left' (Bits.length_digits _ _)]
    simp only [takeBits, digits, Nat.one_shiftLeft, digits_mod le_rfl]
    rfl

theorem readBits_of_le (h : width ≤ r.digits.length) :
    ∃ r', r.readBits width = (.ok (some (.ofNat (number (r.digits.take width)))), r') ∧
      r'.digits = r.digits.drop width ∧ r'.ending = r.ending := by
  rw [length_digits] at h
  have ⟨r₁, hr, hd, hu, he⟩ := fill_of_le (r := r) (n := (width - r.unread + 7) / 8) (by omega)
  have hw : width ≤ r₁.unread := by omega
  have ⟨hv, hd₁⟩ := takeBits_digits hw
  refine ⟨(r₁.takeBits width).2, ?_, hd ▸ hd₁, he⟩
  rw [readBits, hr, ← hd, ← hv]

theorem readBits_of_lt (h : r.digits.length < width) :
    (r.readBits width).1 = r.ending.map fun _ => none := by
  rw [length_digits] at h
  have hf := fill_of_lt (r := r) (n := (width - r.unread + 7) / 8) (by omega)
  rw [readBits]
  generalize r.fill ((width - r.unread + 7) / 8) = x at hf
  cases x; cases hf
  cases r.ending <;> rfl

theorem readBits_element {e : UInt64} (hd : r.digits = Bits.digits width e.toNat ++ ds)
    (he : e.toNat < 2 ^ width) :
    ∃ r', r.readBits width = (.ok (some e), r') ∧ r'.digits = ds ∧ r'.ending = r.ending := by
  have hl : width ≤ r.digits.length := by simp [hd]
  have ⟨r', hr, hd', he'⟩ := readBits_of_le hl
  rw [hd, List.take_left' (Bits.length_digits _ _), number_digits_of_lt he, UInt64.ofNat_toNat] at hr
  rw [hd, List.drop_left' (Bits.length_digits _ _)] at hd'
  exact ⟨r', hr, hd', he'⟩

section Lasting

variable {r' : Reader} {x : Except IoError (Option UInt8)}

theorem nextByte_lasting (hl : r.source.Lasting) (h : r.nextByte = (x, r')) :
    r'.source.Lasting ∧ r'.source.onward = r.source.onward ∧ r'.bytes = r.bytes.tail := by
  unfold nextByte at h
  split at h
  case h_1 hb =>
    cases h
    refine ⟨hl, rfl, ?_⟩
    rw [bytes, bytes, hb, List.cons_append, List.tail_cons]
  case h_2 hb =>
    rw [bytes, bytes, hb, List.nil_append]
    -- What is not data comes after all there was to give.
    have hover {a : Source.Answer} {s' : Source} (hr : r.source.readOn r.blockSize = (a, s'))
        (ha : a.Final) : s'.Lasting ∧ s'.onward = r.source.onward ∧
          s'.supplied = r.source.supplied.tail := by
      obtain ⟨hl', ho, hs⟩ := hl.readOn hr
      rw [(Source.readOn_of_final r.blockSize_pos hr ha).left] at hs ⊢
      exact ⟨hl', ho, (List.append_eq_nil_iff.1 hs.symm).right⟩
    split at h
    case h_1 hr           =>
      cases h
      obtain ⟨hl', ho, hs⟩ := hl.readOn hr
      rw [hs]
      exact ⟨hl', ho, rfl⟩
    case h_2 hr           =>
      cases h
      rw [hb]
      exact hover hr trivial
    case h_3 a s' hd _ hr =>
      cases h
      rw [hb]
      refine hover hr ?_
      rcases a with (_ | _) | _ | _ | _
      · exact absurd rfl (Source.readOn_data_ne_nil hr)
      · exact absurd rfl (hd _ _)
      · trivial
      · exact absurd rfl (Source.readOn_ne_interrupted hr)
      · trivial

theorem nextByte_eq_some_iff : (∃ b, r.nextByte.1 = .ok (some b)) ↔ r.bytes ≠ [] := by
  rcases hb : r.bytes with _ | ⟨b, bs⟩
  case nil  =>
    rw [nextByte_of_nil hb]
    cases r.ending <;> simp [Except.map]
  case cons =>
    obtain ⟨r', hr, _⟩ := nextByte_of_cons hb
    simp [hr]

theorem fill_lasting {o : Except IoError Bool} (hl : r.source.Lasting) (h : r.fill n = (o, r')) :
    r'.source.Lasting ∧ r'.source.onward = r.source.onward ∧
      (r.bytes.length < n → r'.digits = []) := by
  have hlost {r r₁ : Reader} {y : Except IoError (Option UInt8)} (hl : r.source.Lasting)
      (hb : r.nextByte = (y, r₁)) (hy : ¬∃ b, y = .ok (some b)) : r₁.source.Lasting ∧
        r₁.source.onward = r.source.onward ∧ r₁.dropBits.digits = [] := by
    obtain ⟨hl₁, ho₁, hb₁⟩ := nextByte_lasting hl hb
    have hn : r.bytes = [] := by
      by_contra hn
      have hs := nextByte_eq_some_iff.2 hn
      rw [hb] at hs
      exact hy hs
    refine ⟨hl₁, ho₁, ?_⟩
    rw [digits_of_unread_eq_zero rfl]
    exact congrArg Bytes.digits (hb₁.trans (congrArg List.tail hn))
  fun_induction fill r n
  case case1                => cases h; exact ⟨hl, rfl, fun hn => absurd hn (Nat.not_lt_zero _)⟩
  case case2 r n b r₁ hb hi =>
    obtain ⟨hl₁, ho₁, hb₁⟩ := nextByte_lasting hl hb
    obtain ⟨hl', ho', hd'⟩ := hi hl₁ h
    refine ⟨hl', ho'.trans ho₁, fun hn => hd' ?_⟩
    have hne := List.length_pos_iff.2 (nextByte_eq_some_iff.1 ⟨b, congrArg Prod.fst hb⟩)
    have hlen : (r₁.append b).bytes.length = r.bytes.length - 1 := by
      rw [← List.length_tail, ← hb₁]
      rfl
    omega
  case case3 hb             =>
    cases h
    obtain ⟨hl₁, ho₁, hd₁⟩ := hlost hl hb (by simp)
    exact ⟨hl₁, ho₁, fun _ => hd₁⟩
  case case4 hb             =>
    cases h
    obtain ⟨hl₁, ho₁, hd₁⟩ := hlost hl hb (by simp)
    exact ⟨hl₁, ho₁, fun _ => hd₁⟩

theorem readBits_lasting (hl : r.source.Lasting) (width : Nat) :
    (r.readBits width).2.source.Lasting ∧ (r.readBits width).2.ending = r.ending ∧
      (r.digits.length < width → (r.readBits width).2.digits = []) := by
  rcases hf : r.fill ((width - r.unread + 7) / 8) with ⟨o, r₁⟩
  obtain ⟨hl₁, ho, hd⟩ := fill_lasting hl hf
  have he : r₁.ending = r.ending := by rw [ending, hl₁.ending, ho, ← hl.ending, ← ending]
  rw [readBits, hf, length_digits]
  rcases o with e | _ | _
  case error    => exact ⟨hl₁, he, fun h => hd (by omega)⟩
  case ok.false => exact ⟨hl₁, he, fun h => hd (by omega)⟩
  case ok.true  =>
    refine ⟨hl₁, he, fun h => ?_⟩
    have hx := fill_of_lt (r := r) (n := (width - r.unread + 7) / 8) (by omega)
    rw [hf] at hx
    cases he : r.ending <;> rw [he] at hx <;> cases hx

end Lasting

section Undecided

variable {r' : Reader}

theorem digits_supply {a : Source.Answer} (hu : r.source.Undecided) (ha : ¬a.Final) :
    (r.source.supply a).Undecided ∧
      ({ r with source := r.source.supply a } : Reader).digits =
        r.digits ++ Bytes.digits a.bytes := by
  have ⟨hu', hs⟩ := hu.supply ha
  refine ⟨hu', ?_⟩
  simp only [digits, bytes, hs, Bytes.digits_append, List.append_assoc]

theorem nextByte_undecided {b : UInt8} (hu : r.source.Undecided)
    (h : r.nextByte = (.ok (some b), r')) :
    r'.source.Undecided ∧ r'.blockSize = r.blockSize := by
  unfold nextByte at h
  split at h
  case h_1 => cases h; exact ⟨hu, rfl⟩
  case h_2 =>
    split at h
    case h_1 hs => cases h; exact ⟨hu.readOn hs, rfl⟩
    all_goals cases h

theorem nextByte_starved (hu : r.source.Undecided) (h : r.bytes = []) :
    ∃ r', r.nextByte = (.error .wouldBlock, r') ∧ r'.source.starved = some r.blockSize := by
  have ⟨hb, hs⟩ := List.append_eq_nil_iff.1 h
  have ⟨s', hr, hst⟩ := hu.starved_of_readOn r.blockSize_pos hs
  exact ⟨{ r with source := s' }, by simp only [nextByte, hb, hr], hst⟩

theorem readBytes_undecided (hu : r.source.Undecided) (h : n ≤ r.bytes.length) :
    (r.readBytes n).2.source.Undecided ∧ (r.readBytes n).2.blockSize = r.blockSize := by
  induction n generalizing r
  case zero      => exact ⟨hu, rfl⟩
  case succ n hi =>
    match hb : r.bytes with
    | []      => rw [hb] at h; cases h
    | b :: bs =>
      have ⟨r₁, hr, hb₁, _⟩ := nextByte_of_cons hb
      have ⟨hu₁, hz₁⟩ := nextByte_undecided hu hr
      have ⟨hu', hz'⟩ := hi hu₁ (by rw [hb] at h; simpa [hb₁] using h)
      simp only [readBytes, hr]
      exact ⟨hu', hz'.trans hz₁⟩

theorem fill_undecided (hu : r.source.Undecided) (h : r.fill n = (.ok true, r')) :
    r'.source.Undecided ∧ r'.blockSize = r.blockSize := by
  fun_induction fill r n
  case case1                   => cases h; exact ⟨hu, rfl⟩
  case case2 r n b r₁ hb hi    =>
    obtain ⟨hu₁, hz₁⟩ := nextByte_undecided hu hb
    obtain ⟨hu', hz'⟩ := hi hu₁ h
    exact ⟨hu', hz'.trans hz₁⟩
  case case3                   => cases h
  case case4                   => cases h

theorem fill_starved (hu : r.source.Undecided) (h : r.bytes.length < n) :
    ∃ r', r.fill n = (.error .wouldBlock, r') ∧ r'.source.starved = some r.blockSize := by
  induction n generalizing r
  case zero      => cases h
  case succ n hi =>
    match hb : r.bytes with
    | []      =>
      have ⟨r', hr, hs⟩ := nextByte_starved hu hb
      exact ⟨r'.dropBits, by simp only [fill, hr], hs⟩
    | b :: bs =>
      have ⟨r₁, hr, hb₁, _⟩ := nextByte_of_cons hb
      have ⟨hu₁, hz₁⟩ := nextByte_undecided hu hr
      have ha : (r₁.append b).bytes = bs := hb₁
      have ⟨r', hr', hs⟩ := hi (r := r₁.append b) hu₁ (by rw [hb] at h; simpa [ha] using h)
      exact ⟨r', by simp only [fill, hr, hr'], hz₁ ▸ hs⟩

theorem readBits_undecided {v : Option UInt64} (hu : r.source.Undecided)
    (hl : width ≤ r.digits.length) (h : r.readBits width = (.ok v, r')) :
    r'.source.Undecided ∧ r'.blockSize = r.blockSize := by
  rw [length_digits] at hl
  have ⟨r₁, hr, _⟩ := fill_of_le (r := r) (n := (width - r.unread + 7) / 8) (by omega)
  have hx := fill_undecided hu hr
  rw [readBits, hr] at h
  cases h
  exact hx

theorem readBits_starved (hu : r.source.Undecided) (h : r.digits.length < width) :
    ∃ r', r.readBits width = (.error .wouldBlock, r') ∧
      r'.source.starved = some r.blockSize := by
  rw [length_digits] at h
  have ⟨r', hr, hs⟩ := fill_starved (n := (width - r.unread + 7) / 8) hu (by omega)
  exact ⟨r', by rw [readBits, hr], hs⟩

end Undecided

end BitPacking.Bits.Reader
