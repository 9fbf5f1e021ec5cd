import BitPacking.Proofs.Batch.Reading
import BitPacking.Proofs.Stream.Delivery

namespace BitPacking

-- A source that ends before it has given all of the bytes.
structure Source.Truncates (s : Source) (bytes : Bytes) : Prop where
  isPrefix : s.supplied <+: bytes
  ne       : s.supplied ≠ bytes
  ending   : s.ending = .ok ()

theorem Source.Truncates.length_lt {s : Source} {bytes : Bytes} (h : s.Truncates bytes) :
    s.supplied.length < bytes.length :=
  lt_of_le_of_ne h.isPrefix.length_le (h.ne <| h.isPrefix.eq_of_length ·)

variable {c : Config} {source : Source} {bytes : Bytes}

section Batch

variable {values : List UInt64} {sequences front : List (List UInt64)} {n : Nat}

namespace Config

-- The number of digits that sequences are packed as.
def extent (c : Config) (sequences : List (List UInt64)) : Nat :=
  (sequences.flatMap c.sequence).length

@[simp]
theorem extent_nil (c : Config) : c.extent [] = 0 :=
  rfl

@[simp]
theorem extent_cons (c : Config) (values : List UInt64) (sequences : List (List UInt64)) :
    c.extent (values :: sequences) = (c.sequence values).length + c.extent sequences := by
  simp [extent]

-- The sequences whose last digit is among the first `n`.
structure Complete (c : Config) (n : Nat) (sequences front : List (List UInt64)) : Prop where
  isPrefix : front <+: sequences
  last     : ∀ i < sequences.length, i < front.length ↔ c.extent (sequences.take (i + 1)) ≤ n

theorem complete_nil (h : n < (c.sequence values).length) :
    c.Complete n (values :: sequences) [] where
  isPrefix := List.nil_prefix
  last     := by
    intro i _
    rw [List.take_succ_cons, extent_cons, List.length_nil]
    omega

theorem Complete.cons (h : c.Complete n sequences front) (values : List UInt64) :
    c.Complete ((c.sequence values).length + n) (values :: sequences) (values :: front) where
  isPrefix := List.cons_prefix_cons.2 ⟨rfl, h.isPrefix⟩
  last     := by
    intro i hi
    rw [List.take_succ_cons, extent_cons, List.length_cons]
    cases i
    case zero   => simp
    case succ i =>
      have hl := h.last i (Nat.lt_of_succ_lt_succ hi)
      omega

end Config

namespace Batch.Decoder

variable {d d' : Decoder} {ds : List Bool}

-- An error at one of the calls is all that is left of the sequences before it.
theorem Gives.readAll_error {e : Error} (h : d.Gives sequences d') (he : d'.next.1 = .error e)
    (past : List (List UInt64)) : (d.readAll past).1 = .error e := by
  have hn : d'.next = (.error e, d'.next.2) := Prod.ext he rfl
  rw [h.readAll, readAll_of_error _ hn]

theorem gives_of_prefix (hm : d.Matches c) (he : d.reader.ending = .ok ())
    (ha : ∀ s ∈ sequences, c.Admits s) (hn : d.remaining = sequences.length)
    (hd : d.reader.digits <+: sequences.flatMap c.sequence)
    (hl : d.reader.digits.length < c.extent sequences) :
    ∃ front d', c.Complete d.reader.digits.length sequences front ∧ d.Gives front d' ∧
      d'.next.1 = .error .truncatedInput := by
  induction sequences generalizing d
  case nil          => cases hl
  case cons s ss hi =>
    have ⟨hs, hss⟩ := List.forall_mem_cons.1 ha
    have hnz : d.remaining ≠ 0 := by simp [hn]
    rw [List.flatMap_cons] at hd
    by_cases hc : (c.sequence s).length ≤ d.reader.digits.length
    case pos =>
      have ⟨ds, hds, hp⟩ := Config.exists_append_of_prefix hd hc
      have ⟨r, hr, hdr, her⟩ := next_admitted hm hnz hs hds
      rw [hds, List.length_append] at hl ⊢
      rw [Config.extent_cons] at hl
      have ⟨front, d', hf, hg, hd'⟩ := hi
        (d := { d with reader := r, remaining := d.remaining - 1 })
        ⟨hm.bits, hm.sequenceLength, hm.containsZero⟩ (her.trans he) hss (by simp [hn])
        (hdr ▸ hp) (by rw [hdr]; omega)
      exact ⟨s :: front, d', hdr ▸ hf.cons s, .cons hr hg, hd'⟩
    case neg =>
      have hc := Nat.lt_of_not_le hc
      have hp := List.prefix_of_prefix_length_le hd (List.prefix_append ..) hc.le
      have ⟨d', hr⟩ := readSequence_of_prefix hm he hs hp hc
      exact ⟨[], d, Config.complete_nil hc, .nil d, by rw [next, if_neg hnz, hr]⟩

end Batch.Decoder

theorem Batch.Encoder.Finished.decoder_of_truncates (hf : Finished c sequences bytes)
    (hs : source.Truncates bytes) :
    (source.supplied.length < Header.size →
      (Decoder.ofSource source c.containsZero).1 = .error .truncatedInput) ∧
    (Header.size ≤ source.supplied.length →
      ∃ d s front d', Decoder.ofSource source c.containsZero = (.ok d, s) ∧
        c.Complete (8 * (source.supplied.length - Header.size)) sequences front ∧
        d.Gives front d' ∧ d'.next.1 = .error .truncatedInput ∧
        d.all.1 = .error .truncatedInput) := by
  refine ⟨fun hl => Decoder.ofSource_of_lt hl hs.ending _, fun hl => ?_⟩
  obtain ⟨ha, header, body, hb, hh, k, hk, hd⟩ := hf.layout
  have ⟨part, hpart, hp⟩ := Config.exists_append_of_prefix (hb ▸ hs.isPrefix)
    (by rwa [Header.length_encode])
  have hw : IsValidWidth header.bits.toNat := hh.bits ▸ c.isValidWidth_bits
  obtain ⟨d, s, hs', hdh, hz, hr, hdd, he⟩ := Decoder.ofSource_ok c.containsZero hw hpart
  have hm : d.Matches c := ⟨hdh ▸ hh.bits, hdh ▸ hh.sequenceLength, hz⟩
  -- A byte less than the body, while fewer than eight of its digits only fill up the last byte.
  have hlp : d.reader.digits.length = 8 * (source.supplied.length - Header.size) := by
    rw [hdd, Bytes.length_digits, hpart, List.length_append, Header.length_encode,
      Nat.add_sub_cancel_left]
  have hlt : d.reader.digits.length < c.extent sequences := by
    have hlen := congrArg List.length hd
    have hlb := hs.length_lt
    rw [Bytes.length_digits, List.length_append, List.length_replicate] at hlen
    rw [hb, hpart, List.length_append, List.length_append] at hlb
    rw [hdd, Bytes.length_digits, Config.extent]
    omega
  have hpre : d.reader.digits <+: sequences.flatMap c.sequence := by
    refine List.prefix_of_prefix_length_le ?_ (List.prefix_append _ (List.replicate k false)) hlt.le
    rw [hdd, ← hd]
    exact Bytes.digits_prefix hp
  have ⟨front, d', hc, hg, hn⟩ := Decoder.gives_of_prefix hm (he.trans hs.ending) ha
    (hr.trans hh.sequenceCount) hpre hlt
  exact ⟨d, s, front, d', hs', hlp ▸ hc, hg, hn, hg.readAll_error hn []⟩

end Batch

namespace Stream

variable {values : List UInt64}

theorem Cut.length_eq (h : Cut c values bytes) :
    values.length = 8 * (bytes.length - Header.size) / c.bits := by
  have ⟨ds, hl, hb⟩ := h
  have hlen := congrArg List.length hb
  rw [Bytes.length_digits, List.length_append, length_opening] at hlen
  symm
  apply Nat.div_eq_of_lt_le
  · simp only [Header.size]
    omega
  · rw [Nat.succ_mul values.length, Header.size]
    omega

theorem Whole.decode_of_truncates (hw : Whole c values bytes) (ha : ∀ v ∈ values, c.Accepts v)
    (hs : source.Truncates bytes) :
    (source.supplied = [] → (decode source c.containsZero).1 = ⟨[], some .truncatedInput⟩) ∧
    (source.supplied ≠ [] → ∃ n ≤ values.length,
      n = 8 * (source.supplied.length - Header.size) / c.bits ∧
        (decode source c.containsZero).1 = ⟨values.take n, some .missingEndMarker⟩) := by
  refine ⟨fun hn => decode_nil hn hs.ending _, fun hn => ?_⟩
  cases hw.unfinished_of_prefix hs.isPrefix hs.ne
  case inl h => exact absurd h hn
  case inr h =>
    have ⟨front, hf, hc⟩ := h
    refine ⟨front.length, hf.length_le, hc.length_eq, ?_⟩
    rw [← List.prefix_iff_eq_take.1 hf]
    exact decode_cut hc (fun v hv => ha v (hf.subset hv)) hs.ending

namespace Session

-- The bytes of a stream that an owner has finished, or has let go of where finishing it succeeds.
def Finished (c : Config) (values : List UInt64) (bytes : Bytes) : Prop :=
  ∃ (σ : Type) (behaviour : Sink.Behaviour σ) (state : σ) (e : Encoder) (calls : List Call)
    (s s' : Session σ), Encoder.ofConfig c = .ok e ∧ s = (start e behaviour state).run calls ∧
      (∀ r, (.finish, r) ∈ s.outcomes → r = .ok ()) ∧
      (s.encoder.finish s.sink).1 = .ok () ∧ (s' = s.step .finish ∨ s' = s.drop) ∧
      s'.stored = values ∧ s'.sink.accepted = bytes

theorem Finished.whole (h : Finished c values bytes) :
    Whole c values bytes ∧ ∀ v ∈ values, c.Accepts v := by
  obtain ⟨σ, behaviour, state, e, calls, s, s', he, hs, ho, hf, hs', rfl, rfl⟩ := h
  have h : Sound c s := hs ▸ (start_sound he).run calls
  have ⟨r, hended, _⟩ := ended_of_finish_ok h hf
  have hc := (complete_step_finish_iff he hs hf).1.2 ho
  cases hs'
  case inl hs' => exact hs' ▸ ⟨hc.whole, hended.finished.accepts⟩
  case inr hs' => rw [hs', s.drop_eq]; exact ⟨hc.whole, hended.finished.accepts⟩

end Session
end Stream

-- No proper prefix of a batch or of a stream is taken for the whole: of a batch there are exactly
-- the sequences whose last digit it has, of a stream as many values as there are digits for.
theorem detected_of_truncates (hs : source.Truncates bytes) :
    (∀ sequences, Batch.Encoder.Finished c sequences bytes →
      (source.supplied.length < 9 →
        (Batch.Decoder.ofSource source c.containsZero).1 = .error .truncatedInput) ∧
      (9 ≤ source.supplied.length →
        ∃ d s front d', Batch.Decoder.ofSource source c.containsZero = (.ok d, s) ∧
          c.Complete (8 * (source.supplied.length - 9)) sequences front ∧
          d.Gives front d' ∧ d'.next.1 = .error .truncatedInput ∧
          d.all.1 = .error .truncatedInput)) ∧
    (∀ values, Stream.Session.Finished c values bytes →
      (source.supplied = [] →
        (Stream.decode source c.containsZero).1 = ⟨[], some .truncatedInput⟩) ∧
      (source.supplied ≠ [] → ∃ n ≤ values.length,
        n = 8 * (source.supplied.length - 1) / c.bits ∧
          (Stream.decode source c.containsZero).1 =
            ⟨values.take n, some .missingEndMarker⟩)) :=
  ⟨fun _ hf => hf.decoder_of_truncates hs,
    fun _ hf => hf.whole.1.decode_of_truncates hf.whole.2 hs⟩

-- Without its last byte a batch keeps the first of two sequences, and a stream two of three values.
theorem detected_of_truncates_last_byte :
    let c : Config := ⟨5, 0, true, by decide⟩
    let batch : Bytes := [3, 0, 0, 0, 0, 0, 0, 0, 2, 0xC0]
    let stream : Bytes := [3, 0xC7]
    ((Source.ofBytes batch).Truncates (batch ++ [0xF0]) ∧
      Batch.Encoder.Finished c [[5], [0, 6]] (batch ++ [0xF0]) ∧
      ∃ d s front d', Batch.Decoder.ofSource (.ofBytes batch) true = (.ok d, s) ∧
        c.Complete 8 [[5], [0, 6]] front ∧ d.Gives front d' ∧
        d'.next.1 = .error .truncatedInput ∧ d.all.1 = .error .truncatedInput) ∧
    ((Source.ofBytes stream).Truncates (stream ++ [0x80]) ∧
      Stream.Session.Finished c [5, 0, 6] (stream ++ [0x80]) ∧
      ∃ n ≤ 3, n = 8 / c.bits ∧
        (Stream.decode (.ofBytes stream) true).1 = ⟨[5, 0, 6].take n, some .missingEndMarker⟩) := by
  intro c batch stream
  have hb : (Source.ofBytes batch).Truncates (batch ++ [0xF0]) :=
    ⟨by simp, by simp, Source.ending_ofBytes batch⟩
  have hs : (Source.ofBytes stream).Truncates (stream ++ [0x80]) :=
    ⟨by simp, by simp, Source.ending_ofBytes stream⟩
  have hfb : Batch.Encoder.Finished c [[5], [0, 6]] (batch ++ [0xF0]) := by
    let calls : List Batch.Encoder.Call := [.sequence [5], .bytes [0, 6]]
    let e := (Logged.each Batch.Encoder.Call.perform (.ofConfig c) calls).value
    have he : e.1 = .ok () := by decide +kernel
    exact ⟨calls, e.2, Prod.ext he rfl, rfl, by decide +kernel⟩
  have hfs : Stream.Session.Finished c [5, 0, 6] (stream ++ [0x80]) := by
    let e : Stream.Encoder := { config := c, writer := .ofBytes [3] }
    let s := (Stream.Session.start e ({} : Sink.Limits).sink.behaviour {}).run
      [.push 5, .extend [0, 6]]
    refine ⟨_, _, _, e, _, s, s.step .finish, ?_, rfl, ?_, ?_, .inl rfl, ?_, ?_⟩
    case refine_2 =>
      have ho : s.outcomes = [(.push 5, .ok ()), (.extend [0, 6], .ok ())] := by decide +kernel
      simp [ho]
    all_goals decide +kernel
  exact ⟨⟨hb, hfb, ((detected_of_truncates hb).1 _ hfb).2 (by simp [batch])⟩,
    hs, hfs, ((detected_of_truncates hs).2 _ hfs).2 (by simp [stream])⟩

end BitPacking
