import BitPacking.Proofs.Batch.Decoder

namespace BitPacking.Batch

-- An encoder refuses the sequence that its count has no room for, so there are always few enough.
theorem all_of_finish {maxValue : UInt64} {sequenceLength : UInt32} {containsZero : Bool}
    {c : Config} {e : Encoder} {sequences : List (List UInt64)}
    (hc : (Config.batch maxValue sequenceLength containsZero).value = .ok c)
    (he : (Logged.each Encoder.encode (.ofConfig c) sequences).value = (.ok (), e)) :
    ∃ bytes d s d', e.finish = .ok bytes ∧
      Decoder.ofSource (.ofBytes bytes) containsZero = (.ok d, s) ∧
      (d.header.bits.toNat = c.bits ∧ d.header.sequenceLength = sequenceLength ∧
        d.header.sequenceCount.toNat = sequences.length) ∧
      d.all = (.ok sequences, d') ∧ d'.remaining = 0 ∧ d'.nextOrStop = (.ok none, d') := by
  have ⟨_, hl, hz⟩ := Config.batch_ok hc
  have ⟨ha, _, hs, hn, hw⟩ := Encoder.each_encode_ok rfl he
  have hn : e.sequenceCount.toNat = sequences.length := hn.trans (Nat.zero_add _)
  -- The batch is a header and a body.
  let header : Header := ⟨.ofNat c.bits, c.sequenceLength, 0⟩
  have hw : e.writer.digits = Bytes.digits header.encode ++ sequences.flatMap c.sequence := by
    rw [hw, Encoder.digits_ofConfig]
    rfl
  have ⟨body, hf, k, _, hb⟩ := Encoder.finish_ok ha hw
  -- The decoder reads the header, and then the body.
  let finished : Header := { header with sequenceCount := e.sequenceCount }
  have hv : IsValidWidth finished.bits.toNat := by
    simp only [finished, header, c.toNat_ofNat_bits]
    exact c.isValidWidth_bits
  have hb' : (Source.ofBytes (finished.encode ++ body)).supplied = finished.encode ++ body :=
    Source.supplied_ofBytes _
  have ⟨d, s, hd, hh, hdz, hr, hds, _⟩ := Decoder.ofSource_ok containsZero hv hb'
  have hm : d.Matches c := ⟨by rw [hh, c.toNat_ofNat_bits], by rw [hh], hdz.trans hz.symm⟩
  have ⟨d', hall, hrem⟩ := Decoder.readAll_admitted hm hs (hr.trans hn) [] (hds.trans hb)
  have hn' : d.header.sequenceCount.toNat = sequences.length := by rw [hh]; exact hn
  refine ⟨_, d, s, d', hf, hd, ⟨hm.bits, hm.sequenceLength.trans hl, hn'⟩, hall, hrem, ?_⟩
  rw [Decoder.nextOrStop, Decoder.next, if_pos hrem]

-- Zeros, an empty sequence, and a value above the maximum that still fits its three bits.
theorem all_of_finish_delimited :
    ∃ c e, (Config.batch 5 0 true).value = .ok c ∧
      (Logged.each Encoder.encode (.ofConfig c) [[5, 0], [], [6]]).value = (.ok (), e) ∧
      ∃ bytes d s d', e.finish = .ok bytes ∧ Decoder.ofSource (.ofBytes bytes) true = (.ok d, s) ∧
        (d.header.bits.toNat = c.bits ∧ d.header.sequenceLength = 0 ∧
          d.header.sequenceCount.toNat = 3) ∧
        d.all = (.ok [[5, 0], [], [6]], d') ∧ d'.remaining = 0 ∧ d'.nextOrStop = (.ok none, d') :=
  have hc : (Config.batch 5 0 true).value = .ok ⟨5, 0, true, by decide⟩ := by rfl
  have he : (Logged.each Encoder.encode (.ofConfig ⟨5, 0, true, by decide⟩)
      [[5, 0], [], [6]]).value.1 = .ok () := by rfl
  ⟨_, _, hc, Prod.ext he rfl, all_of_finish hc (Prod.ext he rfl)⟩

end BitPacking.Batch
