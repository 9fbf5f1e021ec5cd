import BitPacking.Proofs.Acceptance
import BitPacking.Proofs.Batch.Spelling
import BitPacking.Proofs.Stream.RoundTrip
import BitPacking.Proofs.Stream.Spelling
import Mathlib.Order.Bounds.Basic

namespace BitPacking

namespace Config

-- The maximums whose elements have a width.
def maximums (width : Nat) (sequenceLength : UInt32) (containsZero : Bool) : Set UInt64 :=
  {maxValue | ∃ c, (batch maxValue sequenceLength containsZero).value = .ok c ∧ c.bits = width}

def largestMaximum (width : Nat) (containsZero : Bool) : UInt64 :=
  .ofNat (2 ^ width - 1 - containsZero.toNat)

variable {c : Config} {width : Nat} {raw : UInt64}

theorem two_pow_width (hw : IsValidWidth width) : 2 ≤ 2 ^ width ∧ 2 ^ width ≤ UInt64.size :=
  ⟨Nat.pow_le_pow_right Nat.two_pos hw.1, Nat.pow_le_pow_right Nat.two_pos hw.2⟩

theorem toNat_largestMaximum (hw : IsValidWidth width) (containsZero : Bool) :
    (largestMaximum width containsZero).toNat = 2 ^ width - 1 - containsZero.toNat := by
  have ⟨_, h⟩ := two_pow_width hw
  exact UInt64.toNat_ofNat_of_lt' (by omega)

theorem bits_of_effectiveMax (hw : IsValidWidth width)
    (h : c.effectiveMax.toNat = 2 ^ width - 1) : c.bits = width := by
  have ⟨h2, _⟩ := two_pow_width hw
  obtain ⟨k, rfl⟩ := Nat.exists_eq_succ_of_ne_zero (Nat.one_le_iff_ne_zero.1 hw.1)
  rw [bits, significantBits, h, Nat.succ.injEq, Nat.log2_eq_iff (by omega)]
  rw [Nat.succ_eq_add_one, pow_succ] at h2 ⊢
  omega

theorem batch_largestMaximum (hw : IsValidWidth width) (sequenceLength : UInt32)
    (containsZero : Bool) :
    ∃ c, batch (largestMaximum width containsZero) sequenceLength containsZero = pure (.ok c) ∧
      c.sequenceLength = sequenceLength ∧ c.containsZero = containsZero ∧ c.bits = width ∧
      c.effectiveMax.toNat = 2 ^ width - 1 := by
  have ⟨h2, hsize⟩ := two_pow_width hw
  have hm := toNat_largestMaximum hw containsZero
  have hfits : containsZero = true →
      (largestMaximum width containsZero).toNat + 1 < UInt64.size := by
    rintro rfl
    rw [hm, Bool.toNat_true]
    omega
  let c : Config := ⟨largestMaximum width containsZero, sequenceLength, containsZero, hfits⟩
  have he : c.effectiveMax.toNat = 2 ^ width - 1 := by
    rw [toNat_effectiveMax]
    show (largestMaximum width containsZero).toNat + containsZero.toNat = _
    have := Bool.toNat_le containsZero
    omega
  have hz : c.effectiveMax ≠ 0 := by
    intro h0
    rw [h0] at he
    simp at he
    omega
  refine ⟨c, ?_, rfl, rfl, bits_of_effectiveMax hw he, he⟩
  rw [batch, dif_pos hfits]
  show (do discard (bitLength c.effectiveMax); return (Except.ok c : Except Error Config)) = _
  rw [bitLength, if_neg hz]
  rfl

theorem isGreatest_largestMaximum (hw : IsValidWidth width) (sequenceLength : UInt32)
    (containsZero : Bool) :
    IsGreatest (maximums width sequenceLength containsZero) (largestMaximum width containsZero) := by
  constructor
  case left  =>
    have ⟨c, hc, _, _, hb, _⟩ := batch_largestMaximum hw sequenceLength containsZero
    exact ⟨c, congrArg Logged.value hc, hb⟩
  case right =>
    rintro maxValue ⟨c, hc, hb⟩
    obtain ⟨rfl, -, rfl⟩ := batch_ok hc
    have hlt := c.effectiveMax_lt
    rw [hb, toNat_effectiveMax] at hlt
    rw [UInt64.le_iff_toNat_le, toNat_largestMaximum hw]
    omega

theorem stored_unmap (h : c.containsZero = true → raw ≠ delimiter) :
    c.stored (c.unmap raw) = raw := by
  rw [stored, Config.unmap, BitPacking.unmap]
  cases hz : c.containsZero
  case false => simp
  case true  => simp [show raw ≠ 0 from h hz]

theorem holds_unmap (h : c.containsZero = true → raw ≠ delimiter) (hb : raw.toNat < 2 ^ c.bits) :
    c.Holds (c.unmap raw) where
  unmap_stored := congrArg _ (stored_unmap h)
  stored_lt    := by rwa [stored_unmap h]

end Config

namespace Spelled

variable {c : Config} {values : List UInt64} {ds rest : List Bool}

theorem element_of_element? {raw : UInt64} (h : Bits.element? c.bits ds = some (raw, rest))
    (hr : c.containsZero = true → raw ≠ delimiter) :
    c.Holds (c.unmap raw) ∧ c.stored (c.unmap raw) = raw ∧
      ds = c.element (c.unmap raw) ++ rest := by
  have ⟨hd, hlt⟩ := Bits.digits_of_element? c.isValidWidth_bits.2 h
  have hs := Config.stored_unmap hr
  exact ⟨Config.holds_unmap hr hlt, hs, by rw [Config.element, hs, hd]⟩

theorem times_eq_some {α : Type} {item? : List Bool → Option (α × List Bool)} (P : α → Prop)
    (digits : α → List Bool) {n : Nat} {as : List α}
    (hi : ∀ {ds a rest}, item? ds = some (a, rest) → P a ∧ ds = digits a ++ rest)
    (h : times item? n ds = ⟨as, some rest⟩) :
    as.length = n ∧ (∀ a ∈ as, P a) ∧ ds = as.flatMap digits ++ rest := by
  induction n generalizing ds as
  case zero       => cases h; exact ⟨rfl, nofun, rfl⟩
  case succ n hin =>
    rw [times] at h
    split at h
    case h_1          => cases h
    case h_2 a ds' hx =>
      obtain ⟨as, rfl, hs⟩ := cons_eq_some h
      obtain ⟨hp, hd⟩ := hi hx
      obtain ⟨hl, hps, hds⟩ := hin hs
      refine ⟨congrArg (· + 1) hl, List.forall_mem_cons.2 ⟨hp, hps⟩, ?_⟩
      rw [hd, hds, List.flatMap_cons, List.append_assoc]

theorem run_eq_some (h : run c.bits c.containsZero ds = ⟨values, some rest⟩) :
    (∀ v ∈ values, c.Accepts v) ∧ ds = values.flatMap c.element ++ c.endMark ++ rest := by
  generalize hw : c.bits = width, hz : c.containsZero = containsZero at h
  fun_induction run width containsZero ds generalizing values
  case case1                   => cases h
  case case2 hx                =>
    cases h
    obtain ⟨hd, _⟩ := Bits.digits_of_element? c.isValidWidth_bits.2 (hw ▸ hx)
    exact ⟨List.forall_mem_nil _, hd⟩
  case case3 raw rest hx hr hi =>
    obtain ⟨values, rfl, hs⟩ := cons_eq_some h
    obtain ⟨hh, hst, hd⟩ := element_of_element? (hw ▸ hx) fun _ => hr
    obtain ⟨ha, hds⟩ := hi hs
    have hu : unmap containsZero raw = c.unmap raw := hz ▸ rfl
    rw [hu]
    refine ⟨List.forall_mem_cons.2 ⟨⟨hh, hst.symm ▸ hr⟩, ha⟩, ?_⟩
    rw [hd, hds, List.flatMap_cons]
    simp only [List.append_assoc]

-- Where zero is stored in two ways, only a delimited sequence tells them apart.
theorem sequence?_eq_some {header : Batch.Header} (hb : header.bits.toNat = c.bits)
    (hl : header.sequenceLength = c.sequenceLength) (hz : ¬c.Delimited → c.containsZero = false)
    (h : sequence? header c.containsZero ds = some (values, rest)) :
    c.Admits values ∧ ds = c.sequence values ++ rest := by
  have hd : header.Delimited ↔ c.Delimited := by
    rw [Batch.Header.Delimited, hl, Config.Delimited]
  rw [sequence?, hb, hl] at h
  rw [Config.sequence]
  by_cases hc : c.Delimited
  case pos =>
    rw [if_pos (hd.2 hc)] at h
    rw [if_pos hc]
    obtain ⟨ha, hds⟩ := run_eq_some (whole?_eq_some h)
    exact ⟨⟨fun v hv => (ha v hv).toHolds, absurd hc, fun _ v hv => (ha v hv).no_delimiter⟩, hds⟩
  case neg =>
    rw [if_neg (hc <| hd.1 ·)] at h
    rw [if_neg hc, List.append_nil]
    obtain ⟨hn, hs, hds⟩ := times_eq_some c.Holds c.element (fun hx => by
      obtain ⟨raw, hr, rfl⟩ := value?_eq_some hx
      obtain ⟨hh, _, hd⟩ := element_of_element? hr (by simp [hz hc])
      exact ⟨hh, hd⟩) (whole?_eq_some h)
    exact ⟨⟨hs, fun _ => hn, (absurd · hc)⟩, hds⟩

end Spelled

theorem Config.warnings_of_holds {c : Config} {values : List UInt64}
    (hm : c.effectiveMax.toNat = 2 ^ c.bits - 1) (h : ∀ v ∈ values, c.Holds v) :
    c.warnings values = [] := by
  apply warnings_eq_nil
  intro v hv
  have hlt := (h v hv).stored_lt
  rw [UInt64.le_iff_toNat_le]
  omega

namespace Batch

variable {bytes : Bytes} {d d' : Decoder} {s : Source} {sequences : List (List UInt64)}

theorem Decoder.all_ok (h : d.all = (.ok sequences, d')) :
    d.spelled = ⟨sequences, some d'.reader.digits⟩ := by
  match hs : d.spelled with
  | ⟨_, some _⟩ =>
    have ⟨d₁, hr, hd⟩ := readAll_of_spelled [] hs
    rw [all, hr] at h
    cases h
    rw [hd]
    rfl
  | ⟨_, none⟩   =>
    have hr := readAll_of_none [] (by rw [hs])
    rw [← all, h] at hr
    cases hr

theorem Decoder.header_of_ofSource {source : Source} {containsZero : Bool}
    (h : ofSource source containsZero = (.ok d, s)) :
    source.supplied.take Header.size = d.header.encode ∧ d.containsZero = containsZero ∧
      d.remaining = d.header.sequenceCount.toNat ∧
      d.reader.digits = Bytes.digits (source.supplied.drop Header.size) := by
  match hd : Header.decode (source.supplied.take Header.size) with
  | .error e   =>
    have hx := ofSource_of_decode_error hd containsZero
    rw [h] at hx
    cases hx
  | .ok header =>
    have ⟨d₁, s₁, hx, hh, hz, hn, hds, _⟩ := ofSource_of_decode hd containsZero
    rw [h] at hx
    cases hx
    rw [hh]
    exact ⟨Header.take_of_decode hd, hz, hn, hds⟩

theorem Decoder.reencode {containsZero : Bool}
    (hd : ofSource (.ofBytes bytes) containsZero = (.ok d, s)) (ha : d.all = (.ok sequences, d'))
    (hz : d.header.Delimited ∨ containsZero = false) :
    ∃ maxValue e e' out,
      IsGreatest (Config.maximums d.header.bits.toNat d.header.sequenceLength containsZero)
        maxValue ∧
      maxValue.toNat = 2 ^ d.header.bits.toNat - 1 - containsZero.toNat ∧
      Encoder.new maxValue d.header.sequenceLength containsZero = pure (.ok e) ∧
      Logged.each Encoder.encode e sequences = ⟨(.ok (), e'), []⟩ ∧ e'.overflowWarnings = 0 ∧
      e'.finish = .ok out ∧ out.take Header.size = bytes.take Header.size ∧
      ∃ ds k, k < 8 ∧ Bytes.digits (bytes.drop Header.size) = ds ++ d'.reader.digits ∧
        Bytes.digits (out.drop Header.size) = ds ++ List.replicate k false := by
  obtain ⟨hh, hdz, hn, hds⟩ := header_of_ofSource hd
  rw [Source.supplied_ofBytes] at hh hds
  obtain ⟨c, hc, hcl, hcz, hcb, hm⟩ := Config.batch_largestMaximum d.isValidWidth
    d.header.sequenceLength containsZero
  rw [← hcb] at hm
  have hcd : ¬c.Delimited → c.containsZero = false := by
    intro hcd
    rw [Config.Delimited, hcl] at hcd
    exact hcz.trans (hz.resolve_left hcd)
  -- The payload is the digits of the sequences, and of no others.
  have hsp := all_ok ha
  rw [spelled, hdz, ← hcz, hds] at hsp
  obtain ⟨hlen, hadm, hpay⟩ := Spelled.times_eq_some c.Admits c.sequence
    (Spelled.sequence?_eq_some hcb.symm hcl.symm hcd) hsp
  -- The encoder takes them as they are.
  have hroom : (Encoder.ofConfig c).sequenceCount.toNat + sequences.length < UInt32.size := by
    show 0 + sequences.length < UInt32.size
    rw [hlen, hn, Nat.zero_add]
    exact d.header.sequenceCount.toNat_lt
  obtain ⟨e', he', hw⟩ := Encoder.each_encode_of_admits (e := .ofConfig c) rfl hroom hadm
  have hnil : sequences.flatMap (Encoder.ofConfig c).config.warnings = [] :=
    List.flatMap_eq_nil_iff.2 fun s hs => Config.warnings_of_holds hm (hadm s hs).holds
  rw [hnil] at he' hw
  obtain ⟨hab, hpk⟩ := Encoder.each_encode_ok rfl (congrArg Logged.value he')
  have hdig := hpk.digits
  rw [Encoder.digits_ofConfig] at hdig
  obtain ⟨body, hf, k, hk, hbody⟩ := Encoder.finish_ok hab hdig
  have hhead : (⟨.ofNat c.bits, c.sequenceLength, e'.sequenceCount⟩ : Header) = d.header := by
    have hb : UInt8.ofNat c.bits = d.header.bits := by
      rw [← UInt8.toNat_inj, c.toNat_ofNat_bits, hcb]
    have hcount : e'.sequenceCount = d.header.sequenceCount := by
      rw [← UInt32.toNat_inj, hpk.sequenceCount, hlen, hn]
      exact Nat.zero_add _
    rw [hb, hcl, hcount]
  have hf : e'.finish = .ok (d.header.encode ++ body) := hhead ▸ hf
  refine ⟨_, .ofConfig c, e', _, Config.isGreatest_largestMaximum d.isValidWidth _ _,
    Config.toNat_largestMaximum d.isValidWidth _, ?_, he', hw, hf, ?_,
    sequences.flatMap c.sequence, k, hk, hpay, ?_⟩
  · rw [Encoder.new, hc]
    rfl
  · rw [hh]
    exact List.take_left' (Header.length_encode _)
  · rw [List.drop_left' (Header.length_encode _)]
    exact hbody

end Batch

namespace Stream

variable {bytes : Bytes} {d : Decoder} {s : Source} {values : List UInt64}

theorem Decoder.header_of_ofSource {source : Source} {containsZero : Bool}
    (h : ofSource source containsZero = (.ok d, s)) :
    source.supplied.take Header.size = [d.header.bits] ∧ d.containsZero = containsZero ∧
      d.reader.digits = Bytes.digits (source.supplied.drop Header.size) := by
  match hd : Header.decode (source.supplied.take Header.size) with
  | .error e   =>
    have hx := ofSource_of_decode_error hd containsZero
    rw [h] at hx
    cases hx
  | .ok header =>
    have ⟨d₁, s₁, hx, hh, hz, hds, _⟩ := ofSource_of_decode hd containsZero
    rw [h] at hx
    cases hx
    rw [hh]
    exact ⟨Header.take_of_decode hd, hz, hds⟩

theorem Decoder.decode_ok (h : d.decode.1.toList = .ok values) :
    ∃ rest, d.spelled = ⟨values, some rest⟩ := by
  rw [d.decode_eq] at h
  match hs : d.spelled with
  | ⟨_, some rest⟩ => rw [hs] at h; cases h; exact ⟨rest, rfl⟩
  | ⟨_, none⟩      => rw [hs] at h; cases h

theorem Decoder.reencode {σ : Type} {behaviour : Sink.Behaviour σ} {containsZero : Bool}
    (hs : behaviour.Steady) (state : σ)
    (hd : ofSource (.ofBytes bytes) containsZero = (.ok d, s))
    (hv : d.decode.1.toList = .ok values) :
    ∃ maxValue e e₁ s₁ out,
      IsGreatest (Config.maximums d.header.bits.toNat 0 containsZero) maxValue ∧
      maxValue.toNat = 2 ^ d.header.bits.toNat - 1 - containsZero.toNat ∧
      Encoder.new maxValue containsZero = pure (.ok e) ∧
      e.extend ({ behaviour, state } : Sink σ) values = ⟨(.ok (), e₁, s₁), []⟩ ∧
      e₁.overflowWarnings = 0 ∧ (e₁.finish s₁).2.2.accepted = out ∧
      out.take Header.size = bytes.take Header.size ∧
      ∃ ds rest k, k < 8 ∧ ds.length = (values.length + 1) * d.header.bits.toNat ∧
        Bytes.digits (bytes.drop Header.size) = ds ++ rest ∧
        Bytes.digits (out.drop Header.size) = ds ++ List.replicate k false := by
  obtain ⟨hh, hdz, hds⟩ := header_of_ofSource hd
  rw [Source.supplied_ofBytes] at hh hds
  obtain ⟨c, hc, hcl, hcz, hcb, hm⟩ :=
    Config.batch_largestMaximum d.isValidWidth 0 containsZero
  rw [← hcb] at hm
  obtain ⟨rest, hsp⟩ := decode_ok hv
  rw [spelled, hdz, ← hcz, hds, ← hcb] at hsp
  obtain ⟨hacc, hpay⟩ := Spelled.run_eq_some hsp
  obtain ⟨e, he⟩ : ∃ e, Encoder.ofConfig c = .ok e := ⟨_, if_pos hcl⟩
  have hr : e.Running c [] ({ behaviour, state } : Sink σ) := Encoder.ofConfig_running he
  obtain ⟨e₁, s₁, hx, hw⟩ := Encoder.extend_of_accepts hr hs hacc
  rw [Config.warnings_of_holds hm fun v hv => (hacc v hv).toHolds] at hx hw
  obtain ⟨hr₁, hb⟩ := Encoder.extend_ok hr (congrArg Logged.value hx)
  obtain ⟨k, hk, hwhole⟩ := Encoder.finish_steady hr₁ (hb ▸ hs)
  -- A byte of the header stands in front of the payload.
  have hbits : Bits.digits 8 c.bits = Bytes.digits d.header.encode := by
    rw [hcb, Header.encode, Bytes.digits_cons, Bytes.digits_nil, List.append_nil]
  rw [opening, hbits, List.append_assoc, List.append_assoc] at hwhole
  obtain ⟨body, hout, hbody⟩ := Bytes.exists_append_of_digits_eq hwhole
  refine ⟨_, e, e₁, s₁, _, Config.isGreatest_largestMaximum d.isValidWidth _ _,
    Config.toNat_largestMaximum d.isValidWidth _, ?_, hx, ?_, hout, ?_,
    values.flatMap c.element ++ c.endMark, rest, k, hk, ?_, hpay, ?_⟩
  · rw [Encoder.new, Config.stream, hc]
    exact congrArg pure he
  · rw [hw, Encoder.ofConfig_overflowWarnings he]
    rfl
  · rw [hh]
    rfl
  · rw [List.length_append, Config.length_elements, c.length_endMark, hcb]
    ring
  · rw [List.append_assoc]
    exact hbody

end Stream

-- Encoding what was decoded gives back all of it but the digits after the last sequence, in as few
-- bytes as it takes.
theorem reencode_of_decode {σ : Type} {behaviour : Sink.Behaviour σ} (hs : behaviour.Steady)
    (state : σ) (bytes : Bytes) (containsZero : Bool) :
    (∀ d s sequences d',
      Batch.Decoder.ofSource (.ofBytes bytes) containsZero = (.ok d, s) →
      d.all = (.ok sequences, d') → d.header.Delimited ∨ containsZero = false →
      ∃ maxValue e e' out,
        IsGreatest (Config.maximums d.header.bits.toNat d.header.sequenceLength containsZero)
          maxValue ∧
        maxValue.toNat = 2 ^ d.header.bits.toNat - 1 - containsZero.toNat ∧
        Batch.Encoder.new maxValue d.header.sequenceLength containsZero = pure (.ok e) ∧
        Logged.each Batch.Encoder.encode e sequences = ⟨(.ok (), e'), []⟩ ∧
        e'.overflowWarnings = 0 ∧ e'.finish = .ok out ∧ out.take 9 = bytes.take 9 ∧
        ∃ ds k, k < 8 ∧ Bytes.digits (bytes.drop 9) = ds ++ d'.reader.digits ∧
          Bytes.digits (out.drop 9) = ds ++ List.replicate k false) ∧
    (∀ d s values,
      Stream.Decoder.ofSource (.ofBytes bytes) containsZero = (.ok d, s) →
      d.decode.1.toList = .ok values →
      ∃ maxValue e e₁ s₁ out,
        IsGreatest (Config.maximums d.header.bits.toNat 0 containsZero) maxValue ∧
        maxValue.toNat = 2 ^ d.header.bits.toNat - 1 - containsZero.toNat ∧
        Stream.Encoder.new maxValue containsZero = pure (.ok e) ∧
        e.extend ({ behaviour, state } : Sink σ) values = ⟨(.ok (), e₁, s₁), []⟩ ∧
        e₁.overflowWarnings = 0 ∧ (e₁.finish s₁).2.2.accepted = out ∧
        out.take 1 = bytes.take 1 ∧
        ∃ ds rest k, k < 8 ∧ ds.length = (values.length + 1) * d.header.bits.toNat ∧
          Bytes.digits (bytes.drop 1) = ds ++ rest ∧
          Bytes.digits (out.drop 1) = ds ++ List.replicate k false) :=
  ⟨fun _ _ _ _ hd ha hz => Batch.Decoder.reencode hd ha hz,
    fun _ _ _ hd hv => Stream.Decoder.reencode hs state hd hv⟩

-- Digits that fill up a byte, and a byte more, behind the delimiter of 5, 0 and 6.
theorem reencode_of_decode_padded :
    let batch : Bytes := [3, 0, 0, 0, 0, 0, 0, 0, 1, 0xC7, 0x83, 9]
    let stream : Bytes := [3, 0xC7, 0x83, 9]
    Stream.reluctant.Steady ∧
    (∃ d s d', Batch.Decoder.ofSource (.ofBytes batch) true = (.ok d, s) ∧
      d.all = (.ok [[5, 0, 6]], d') ∧ d.header.Delimited ∧
      ∃ maxValue e e' out,
        Batch.Encoder.new maxValue d.header.sequenceLength true = pure (.ok e) ∧
        Logged.each Batch.Encoder.encode e [[5, 0, 6]] = ⟨(.ok (), e'), []⟩ ∧
        e'.finish = .ok out ∧ out.take 9 = batch.take 9 ∧
        ∃ ds k, k < 8 ∧ Bytes.digits (batch.drop 9) = ds ++ d'.reader.digits ∧
          Bytes.digits (out.drop 9) = ds ++ List.replicate k false) ∧
    (∃ d s, Stream.Decoder.ofSource (.ofBytes stream) true = (.ok d, s) ∧
      d.decode.1.toList = .ok [5, 0, 6] ∧
      ∃ maxValue e e₁ s₁ out, Stream.Encoder.new maxValue true = pure (.ok e) ∧
        e.extend ({ behaviour := Stream.reluctant, state := 0 } : Sink Nat) [5, 0, 6] =
          ⟨(.ok (), e₁, s₁), []⟩ ∧
        (e₁.finish s₁).2.2.accepted = out ∧ out.take 1 = stream.take 1 ∧
        ∃ ds rest k, k < 8 ∧ ds.length = (3 + 1) * d.header.bits.toNat ∧
          Bytes.digits (stream.drop 1) = ds ++ rest ∧
          Bytes.digits (out.drop 1) = ds ++ List.replicate k false) := by
  intro batch stream
  refine ⟨Stream.reluctant_steady, ?_, ?_⟩
  · have hx : (Batch.Decoder.ofSource (.ofBytes batch) true).1.map
        (fun d => (d.header, d.all.1)) = .ok (⟨3, 0, 1⟩, .ok [[5, 0, 6]]) := by decide +kernel
    match hd : Batch.Decoder.ofSource (.ofBytes batch) true with
    | (.error e, s) => rw [hd] at hx; cases hx
    | (.ok d, s)    =>
      rw [hd] at hx
      simp only [Except.map, Except.ok.injEq, Prod.mk.injEq] at hx
      have hz : d.header.Delimited := by rw [hx.1]; rfl
      have ha : d.all = (.ok [[5, 0, 6]], d.all.2) := Prod.ext hx.2 rfl
      have ⟨m, e, e', out, _, _, he, henc, _, hf, ht, hds⟩ :=
        (reencode_of_decode Stream.reluctant_steady 0 batch true).1 d s _ _ hd ha (.inl hz)
      exact ⟨d, s, _, rfl, ha, hz, m, e, e', out, he, henc, hf, ht, hds⟩
  · have hx : (Stream.Decoder.ofSource (.ofBytes stream) true).1.map
        (fun d => d.decode.1.toList) = .ok (.ok [5, 0, 6]) := by decide +kernel
    match hd : Stream.Decoder.ofSource (.ofBytes stream) true with
    | (.error e, s) => rw [hd] at hx; cases hx
    | (.ok d, s)    =>
      rw [hd] at hx
      have hv : d.decode.1.toList = .ok [5, 0, 6] := Except.ok.inj hx
      have ⟨m, e, e₁, s₁, out, _, _, he, henc, _, hf, ht, hds⟩ :=
        (reencode_of_decode Stream.reluctant_steady 0 stream true).2 d s _ hd hv
      exact ⟨d, s, rfl, hv, m, e, e₁, s₁, out, he, henc, hf, ht, hds⟩

end BitPacking
