import BitPacking.Proofs.Acceptance
import BitPacking.Proofs.Batch.Spelling
import BitPacking.Proofs.Stream.RoundTrip
import BitPacking.Proofs.Stream.Spelling

namespace BitPacking

variable {c : Config} {values : List UInt64}

theorem Config.admits_iff (hd : c.Delimited) : c.Admits values ↔ ∀ v ∈ values, c.Accepts v where
  mp h  := fun v hv => ⟨h.holds v hv, h.no_delimiter hd v hv⟩
  mpr h := ⟨fun v hv => (h v hv).toHolds, absurd hd, fun _ v hv => (h v hv).no_delimiter⟩

namespace Batch.Encoder

theorem encode_ok_iff {e : Encoder} (ha : e.aborted = false)
    (hc : e.sequenceCount.toNat + 1 < UInt32.size) :
    (e.encode values).value.1 = .ok () ↔ e.config.Admits values where
  mp h  := (encode_ok (Prod.ext h rfl)).2.admits
  mpr h := by
    have ⟨e', he, _⟩ := encode_of_admits ha hc h
    rw [he]

end Batch.Encoder

namespace Stream.Encoder

variable {σ : Type} {s : Sink σ} {e : Encoder} {past : List UInt64}

theorem extend_ok_iff (hr : Running c past e s) (hs : s.behaviour.Steady) :
    (e.extend s values).value.1 = .ok () ↔ ∀ v ∈ values, c.Accepts v where
  mp h  := fun v hv =>
    (extend_ok hr (Prod.ext h rfl)).1.accepts v (List.mem_append_right past hv)
  mpr h := by
    have ⟨e', s', he, _⟩ := extend_of_accepts hr hs h
    rw [he]

end Stream.Encoder

namespace Stream

-- An encoder for streams can be had where one for batches can.
theorem Encoder.new_cases (maxValue : UInt64) (containsZero : Bool) :
    (∃ cause, (new maxValue containsZero).value = .error cause ∧
        (Batch.Encoder.new maxValue 0 containsZero).value = .error cause) ∨
      ∃ c e, c.Delimited ∧ ofConfig c = .ok e ∧ (new maxValue containsZero).value = .ok e ∧
        (Batch.Encoder.new maxValue 0 containsZero).value = .ok (.ofConfig c) := by
  match h : (Config.batch maxValue 0 containsZero).value with
  | .error cause =>
    refine .inl ⟨cause, ?_, ?_⟩
    · simp only [new, Logged.value_bind, Logged.value_pure, Config.stream, h]
      rfl
    · simp only [Batch.Encoder.new, Logged.value_bind, Logged.value_pure, h]
      rfl
  | .ok c        =>
    have hd : c.Delimited := (Config.batch_ok h).2.1
    refine .inr ⟨c, _, hd, if_pos hd, ?_, ?_⟩
    · simp only [new, Logged.value_bind, Logged.value_pure, Config.stream, h]
      exact if_pos hd
    · simp only [Batch.Encoder.new, Logged.value_bind, Logged.value_pure, h]
      rfl

-- A batch of one sequence is the stream of its values behind another header.
theorem Whole.finish_ofConfig {bytes : Bytes} {b : Batch.Encoder} (h : Whole c values bytes)
    (hd : c.Delimited) (he : ((Batch.Encoder.ofConfig c).encode values).value = (.ok (), b)) :
    ∃ bits body, b.finish = .ok ((⟨bits, 0, 1⟩ : Batch.Header).encode ++ body) ∧
      bytes = bits :: body := by
  have ⟨ha, hadds⟩ := Batch.Encoder.encode_ok he
  have hw := hadds.digits
  rw [Batch.Encoder.digits_ofConfig] at hw
  have ⟨body, hf, k, hk, hbody⟩ := Batch.Encoder.finish_ok ha hw
  have hn : b.sequenceCount = 1 := UInt32.toNat_inj.1 hadds.sequenceCount
  rw [hn, hd] at hf
  have hs : (Batch.Encoder.ofConfig c).config.sequence values =
      values.flatMap c.element ++ c.endMark :=
    congrArg _ (if_pos hd)
  have hb : Whole c values (UInt8.ofNat c.bits :: body) := by
    refine ⟨k, hk, ?_⟩
    rw [Bytes.digits_cons, Bytes.digits_ofNat, hbody, hs, opening]
    simp only [List.append_assoc]
  exact ⟨_, body, hf, hb.unique h⟩

theorem Encoder.overflowWarnings_eq {σ : Type} {s s' : Sink σ} {e e' : Encoder}
    {b : Batch.Encoder} (hd : c.Delimited) (he : ofConfig c = .ok e) (hr : Running c [] e s)
    (hs : s.behaviour.Steady) (hx : (e.extend s values).value = (.ok (), e', s'))
    (hy : ((Batch.Encoder.ofConfig c).encode values).value = (.ok (), b)) :
    e'.overflowWarnings = b.overflowWarnings := by
  have ha : c.Admits values := (Batch.Encoder.encode_ok hy).2.admits
  have ⟨_, _, he', hn'⟩ := extend_of_accepts hr hs ((Config.admits_iff hd).1 ha)
  have ⟨_, hb, hn⟩ := Batch.Encoder.encode_of_admits (e := .ofConfig c) rfl
    (show (0 : UInt32).toNat + 1 < UInt32.size by decide) ha
  rw [he'] at hx
  rw [hb] at hy
  cases hx
  cases hy
  rw [hn', hn, ofConfig_overflowWarnings he]
  rfl

end Stream

-- The same digits behind either header are the same values, or too few in the same place.
theorem Stream.Decoder.toList_decode_cases {width : UInt8} (hw : IsValidWidth width.toNat)
    (payload : Bytes) (containsZero : Bool) :
    ∃ d s d' s', ofSource (.ofBytes (width :: payload)) containsZero = (.ok d, s) ∧
      Batch.Decoder.ofSource (.ofBytes ((⟨width, 0, 1⟩ : Batch.Header).encode ++ payload))
        containsZero = (.ok d', s') ∧
      ((∃ values, d.decode.1.toList = .ok values ∧ d'.next.1 = .ok (some values)) ∨
        d.decode.1.toList = .error .missingEndMarker ∧ d'.next.1 = .error .truncatedInput) := by
  have hb : Header.decode ((Source.ofBytes (width :: payload)).supplied.take Header.size) =
      .ok ⟨width⟩ := by
    rw [Source.supplied_ofBytes]
    exact if_pos hw
  obtain ⟨d, s, hs, hh, hz, hd, he⟩ := ofSource_of_decode hb containsZero
  have hw' : IsValidWidth (⟨width, 0, 1⟩ : Batch.Header).bits.toNat := hw
  obtain ⟨d', s', hs', hh', hz', hn', hd', he'⟩ :=
    Batch.Decoder.ofSource_ok containsZero hw' (Source.supplied_ofBytes (_ ++ payload))
  have hnz : d'.remaining ≠ 0 := by rw [hn']; exact Nat.one_ne_zero
  -- One delimited sequence is spelled as the run that a stream is.
  have hsp : Spelled.sequence? d'.header d'.containsZero d'.reader.digits = d.spelled.whole? := by
    rw [spelled, hh, hz, hd, hh', hz', hd', Source.supplied_ofBytes, Spelled.sequence?]
    exact if_pos rfl
  rw [Source.ending_ofBytes] at he he'
  refine ⟨d, s, d', s', hs, hs', ?_⟩
  rcases hr : d.spelled with ⟨values, _ | rest⟩
  case none =>
    have hv : d.spelled.whole? = none := by rw [hr]; rfl
    obtain ⟨d₁, hx⟩ := Batch.Decoder.next_of_none hnz (hsp.trans hv)
    refine .inr ⟨?_, ?_⟩
    · rw [d.decode_eq, hr, shortage, he]
      rfl
    · rw [hx, Batch.Decoder.shortage, he']
      rfl
  case some =>
    have hv : d.spelled.whole? = some (values, rest) := by rw [hr]; rfl
    obtain ⟨d₁, hx, _⟩ := Batch.Decoder.next_of_sequence? hnz (hsp.trans hv)
    exact .inl ⟨values, by rw [d.decode_eq, hr]; rfl, congrArg Prod.fst hx⟩

theorem Stream.Encoder.agrees_with_batch {σ : Type} {s : Sink σ} {e : Encoder}
    (hd : c.Delimited) (he : ofConfig c = .ok e) (hr : Running c [] e s)
    (hs : s.behaviour.Steady) (values : List UInt64) :
    ((e.extend s values).value.1 = .ok () ↔
        ((Batch.Encoder.ofConfig c).encode values).value.1 = .ok ()) ∧
      ∀ e₁ s₁ s₂ b₁, (e.extend s values).value = (.ok (), e₁, s₁) →
        ((Batch.Encoder.ofConfig c).encode values).value = (.ok (), b₁) →
        s₂ = (e₁.finish s₁).2.2 ∨ s₂ = (e₁.drop s₁).value.2 →
        (∃ bits body, s₂.accepted = bits :: body ∧
          b₁.finish = .ok ((⟨bits, 0, 1⟩ : Batch.Header).encode ++ body)) ∧
        e₁.overflowWarnings = b₁.overflowWarnings := by
  constructor
  case left  =>
    have hroom : (Batch.Encoder.ofConfig c).sequenceCount.toNat + 1 < UInt32.size :=
      show (0 : UInt32).toNat + 1 < UInt32.size by decide
    rw [extend_ok_iff hr hs, Batch.Encoder.encode_ok_iff rfl hroom]
    exact (Config.admits_iff hd).symm
  case right =>
    intro e₁ s₁ s₂ b₁ hx hy hs₂
    have ⟨hr₁, hb⟩ := extend_ok hr hx
    have hw := finish_steady hr₁ (hb ▸ hs)
    have hs₂ : s₂ = (e₁.finish s₁).2.2 := by
      cases hs₂
      case inl hs₂ => exact hs₂
      case inr hs₂ => rw [hs₂, value_drop]
    have ⟨bits, body, hf, hacc⟩ := hw.finish_ofConfig hd hy
    exact ⟨⟨bits, body, hs₂ ▸ hacc, hf⟩, overflowWarnings_eq hd he hr hs hx hy⟩

section Agreement

variable {σ : Type} {behaviour : Sink.Behaviour σ}

theorem stream_agrees_with_batch (hs : behaviour.Steady) (state : σ) (maxValue : UInt64)
    (containsZero : Bool) (values : List UInt64) (width : UInt8) (payload : Bytes) :
    ((∃ cause, (Stream.Encoder.new maxValue containsZero).value = .error cause ∧
        (Batch.Encoder.new maxValue 0 containsZero).value = .error cause) ∨
      ∃ e b, (Stream.Encoder.new maxValue containsZero).value = .ok e ∧
        (Batch.Encoder.new maxValue 0 containsZero).value = .ok b ∧
        ((e.extend ({ behaviour, state } : Sink σ) values).value.1 = .ok () ↔
          (b.encode values).value.1 = .ok ()) ∧
        ∀ e₁ s₁ s₂ b₁,
          (e.extend ({ behaviour, state } : Sink σ) values).value = (.ok (), e₁, s₁) →
          (b.encode values).value = (.ok (), b₁) →
          s₂ = (e₁.finish s₁).2.2 ∨ s₂ = (e₁.drop s₁).value.2 →
          (∃ bits body, s₂.accepted = bits :: body ∧
            b₁.finish = .ok ((⟨bits, 0, 1⟩ : Batch.Header).encode ++ body)) ∧
          e₁.overflowWarnings = b₁.overflowWarnings) ∧
    (IsValidWidth width.toNat →
      ∃ d s d' s', Stream.Decoder.ofSource (.ofBytes (width :: payload)) containsZero =
          (.ok d, s) ∧
        Batch.Decoder.ofSource (.ofBytes ((⟨width, 0, 1⟩ : Batch.Header).encode ++ payload))
          containsZero = (.ok d', s') ∧
        (∀ values, d.decode.1.toList = .ok values ↔ d'.next.1 = .ok (some values)) ∧
        ((∀ values, d.decode.1.toList ≠ .ok values) →
          d.decode.1.toList = .error .missingEndMarker ∧
            d'.next.1 = .error .truncatedInput)) := by
  constructor
  case left  =>
    cases Stream.Encoder.new_cases maxValue containsZero
    case inl h => exact .inl h
    case inr h =>
      have ⟨c, e, hd, he, hse, hbe⟩ := h
      exact .inr ⟨e, _, hse, hbe,
        Stream.Encoder.agrees_with_batch hd he (Stream.Encoder.ofConfig_running he) hs values⟩
  case right =>
    intro hw
    have ⟨d, s, d', s', hd, hd', hx⟩ := Stream.Decoder.toList_decode_cases hw payload containsZero
    refine ⟨d, s, d', s', hd, hd', ?_⟩
    cases hx
    case inl hx =>
      have ⟨values, hv, hv'⟩ := hx
      rw [hv, hv']
      exact ⟨by simp, fun h => absurd rfl (h values)⟩
    case inr hx =>
      rw [hx.1, hx.2]
      exact ⟨by simp, fun _ => ⟨rfl, rfl⟩⟩

-- The largest value that three bits hold, and a payload that breaks off before its delimiter.
theorem stream_agrees_with_batch_reluctant :
    Stream.reluctant.Steady ∧ IsValidWidth (3 : UInt8).toNat ∧
      ∃ e b e₁ s₁ b₁, (Stream.Encoder.new 5 true).value = .ok e ∧
        (Batch.Encoder.new 5 0 true).value = .ok b ∧
        (e.extend ({ behaviour := Stream.reluctant, state := 0 } : Sink Nat) [5, 0, 6]).value =
          (.ok (), e₁, s₁) ∧
        (b.encode [5, 0, 6]).value = (.ok (), b₁) ∧
        (∃ bits body, (e₁.finish s₁).2.2.accepted = bits :: body ∧
          b₁.finish = .ok ((⟨bits, 0, 1⟩ : Batch.Header).encode ++ body)) ∧
        e₁.overflowWarnings = b₁.overflowWarnings ∧
      ∃ d s d' s', Stream.Decoder.ofSource (.ofBytes [3, 0xC7]) true = (.ok d, s) ∧
        Batch.Decoder.ofSource (.ofBytes [3, 0, 0, 0, 0, 0, 0, 0, 1, 0xC7]) true = (.ok d', s') ∧
        (∀ values, d.decode.1.toList = .ok values ↔ d'.next.1 = .ok (some values)) := by
  have h := stream_agrees_with_batch Stream.reluctant_steady 0 5 true [5, 0, 6] 3 [0xC7]
  have hw : IsValidWidth (3 : UInt8).toNat := by decide
  have ⟨d, s, d', s', hd, hd', hv, _⟩ := h.2 hw
  let e : Stream.Encoder := { config := ⟨5, 0, true, by decide⟩, writer := .ofBytes [3] }
  have he : (Stream.Encoder.new 5 true).value = .ok e := by rfl
  let b := Batch.Encoder.ofConfig ⟨5, 0, true, by decide⟩
  have hb : (Batch.Encoder.new 5 0 true).value = .ok b := by rfl
  cases h.1
  case inl h =>
    obtain ⟨cause, hc, -⟩ := h
    rw [he] at hc
    cases hc
  case inr h =>
    obtain ⟨e', b', he', hb', -, hx⟩ := h
    rw [he] at he'
    rw [hb] at hb'
    cases he'
    cases hb'
    let x := (e.extend ({ behaviour := Stream.reluctant, state := 0 } : Sink Nat) [5, 0, 6]).value
    let y := (b.encode [5, 0, 6]).value
    have hxo : x.1 = .ok () := by decide +kernel
    have hyo : y.1 = .ok () := by decide +kernel
    have hxe : x = (.ok (), x.2) := Prod.ext hxo rfl
    have hye : y = (.ok (), y.2) := Prod.ext hyo rfl
    have ⟨hacc, hn⟩ := hx x.2.1 x.2.2 _ y.2 hxe hye (.inl rfl)
    exact ⟨Stream.reluctant_steady, hw, e, b, x.2.1, x.2.2, y.2, he, hb, hxe, hye, hacc, hn, d, s,
      d', s', hd, hd', hv⟩

end Agreement

end BitPacking
