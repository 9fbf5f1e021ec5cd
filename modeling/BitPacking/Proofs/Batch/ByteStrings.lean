import BitPacking.Proofs.Batch.Decoder
import BitPacking.Proofs.Batch.Precedence

namespace BitPacking

def Config.rowsOf (c : Config) (content : Bytes) : List (List UInt64) :=
  (rows c.sequenceLength.toNat content).map (·.map (·.toUInt64))

namespace Batch

namespace Decoder

variable {d : Decoder} {c : Config} {parts : List Bytes} {ds : List Bool}

theorem bytesOfValues_map (content : Bytes) :
    bytesOfValues (content.map (·.toUInt64)) = .ok content := by
  induction content
  case nil          => rfl
  case cons b bs hi =>
    have hb : b.toUInt64.toNat < UInt8.size := by
      rw [UInt8.toNat_toUInt64]
      exact b.toNat_lt
    rw [List.map_cons, bytesOfValues, if_pos hb, hi, UInt8.toUInt8_toUInt64]
    rfl

theorem readAllBytes_admitted (hm : d.Matches c)
    (ha : ∀ s ∈ parts.map (·.map (·.toUInt64)), c.Admits s) (hn : d.remaining = parts.length)
    (past : List Bytes)
    (hd : d.reader.digits = (parts.map (·.map (·.toUInt64))).flatMap c.sequence ++ ds) :
    ∃ d', d.readAllBytes past = (.ok (past.reverse ++ parts).flatten, d') := by
  induction parts generalizing d past
  case nil          =>
    have h : d.next = (.ok none, d) := if_pos hn
    refine ⟨d, ?_⟩
    rw [readAllBytes]
    split
    case h_1 hx => rw [h] at hx; cases hx
    case h_2 hx => rw [h] at hx; cases hx; rw [List.append_nil]
    case h_3 hx => rw [h] at hx; cases hx
  case cons p ps hi =>
    obtain ⟨hs, hss⟩ := List.forall_mem_cons.1 ha
    rw [List.map_cons, List.flatMap_cons, List.append_assoc] at hd
    obtain ⟨r, h, hds, -⟩ := next_admitted hm (by simp [hn]) hs hd
    obtain ⟨d', hd'⟩ := hi (d := { d with reader := r, remaining := d.remaining - 1 })
      ⟨hm.bits, hm.sequenceLength, hm.containsZero⟩ hss (by simp [hn]) (p :: past) hds
    refine ⟨d', ?_⟩
    rw [readAllBytes]
    split
    case h_1 hx =>
      rw [h] at hx
      cases hx
      simp only [bytesOfValues_map, hd', List.reverse_cons, List.append_assoc,
        List.singleton_append]
    case h_2 hx => rw [h] at hx; cases hx
    case h_3 hx => rw [h] at hx; cases hx

end Decoder

namespace Encoder

variable {e e' : Encoder} {c : Config} {content : Bytes} {sequences : List (List UInt64)}

theorem Packs.opens (h : Packs (ofConfig c) e sequences) (ha : e.aborted = false) :
    ∃ bytes d s ds, e.finish = .ok bytes ∧
      Decoder.ofSource (.ofBytes bytes) c.containsZero = (.ok d, s) ∧ d.Matches c ∧
      d.remaining = sequences.length ∧ d.reader.digits = sequences.flatMap c.sequence ++ ds := by
  have hw := h.digits
  rw [digits_ofConfig] at hw
  have ⟨body, hf, k, _, hb⟩ := finish_ok ha hw
  let finished : Header := ⟨.ofNat c.bits, c.sequenceLength, e.sequenceCount⟩
  have hv : IsValidWidth finished.bits.toNat := by
    simp only [finished, c.toNat_ofNat_bits]
    exact c.isValidWidth_bits
  have ⟨d, s, hd, hh, hz, hr, hds, _⟩ := Decoder.ofSource_ok c.containsZero hv
    (Source.supplied_ofBytes (finished.encode ++ body))
  have hm : d.Matches c := ⟨by rw [hh, c.toNat_ofNat_bits], by rw [hh], hz⟩
  exact ⟨_, d, s, _, hf, hd, hm, hr.trans (h.sequenceCount.trans (Nat.zero_add _)), hds.trans hb⟩

theorem guarded_each (ha : e.aborted = false) (sequences : List (List UInt64)) :
    e.guarded (Logged.each append · sequences) = Logged.each encode e sequences := by
  induction sequences generalizing e
  case nil          => exact guarded_of_ok ha rfl
  case cons s ss hi =>
    match hx : e.append s with
    | ⟨(.error cause, e₁), events⟩ =>
      have he : e.encode s = _ := guarded_of_error ha hx
      rw [Logged.each_cons_of_error he]
      exact guarded_of_error ha (Logged.each_cons_of_error hx)
    | ⟨(.ok (), e₁), events⟩       =>
      have ⟨ha₁, _⟩ := append_ok (congrArg Logged.value hx)
      have he : e.encode s = _ := guarded_of_ok ha hx
      rw [Logged.each_cons, he]
      simp only [bind, ← hi (ha₁.trans ha)]
      rw [guarded, ha, guarded, ha₁.trans ha, Logged.each_cons, hx]
      simp [bind, pure]

theorem guarded_congr {step step' : Encoder → Logged (Except Error Unit × Encoder)}
    (h : step e = step' e) : e.guarded step = e.guarded step' := by
  rw [guarded, guarded, h]

theorem encodeBytes_of_delimited (hd : e.config.Delimited) (content : Bytes) :
    e.encodeBytes content = e.encode (content.map (·.toUInt64)) := by
  rw [encodeBytes, encode]
  exact guarded_congr (if_pos hd)

theorem encodeBytes_of_dvd (ha : e.aborted = false) (hd : ¬e.config.Delimited)
    (hl : e.config.sequenceLength.toNat ∣ content.length) :
    e.encodeBytes content = Logged.each encode e (e.config.rowsOf content) := by
  rw [← guarded_each ha, Config.rowsOf, map_rows, ← pieces_eq_rows, encodeBytes]
  exact guarded_congr ((if_neg hd).trans (if_neg (not_not.2 (Nat.mod_eq_zero_of_dvd hl))))

theorem encodeBytes_of_not_dvd (ha : e.aborted = false) (hd : ¬e.config.Delimited)
    (hl : ¬e.config.sequenceLength.toNat ∣ content.length) : e.encodeBytes content =
      pure (.error (.lengthMismatch e.config.sequenceLength.toNat content.length),
        { e with aborted := true }) := by
  rw [encodeBytes]
  exact guarded_of_error ha ((if_neg hd).trans (if_pos (hl ∘ Nat.dvd_of_mod_eq_zero)))

theorem each_encode_rowsOf_of_aborted (ha : e.aborted = true) (hd : ¬e.config.Delimited)
    (hl : e.config.sequenceLength.toNat ∣ content.length) (hc : content ≠ []) :
    Logged.each encode e (e.config.rowsOf content) = pure (.error .encoderAborted, e) := by
  have hn : 0 < e.config.sequenceLength.toNat :=
    Nat.pos_of_ne_zero fun h => hd (UInt32.toNat_inj.1 h)
  rw [Config.rowsOf, rows_of_le hn (Nat.le_of_dvd (List.length_pos_iff.2 hc) hl), List.map_cons]
  exact Logged.each_cons_of_error (perform_of_aborted ha (.sequence _))

theorem encodeBytes_packs (h : (e.encodeBytes content).value = (.ok (), e')) :
    e'.aborted = false ∧ ∃ parts : List Bytes, parts.flatten = content ∧
      Packs e e' (parts.map (·.map (·.toUInt64))) := by
  have ⟨ha, hp⟩ := encodeBytes_ok h
  rw [Call.sequences] at hp
  split at hp
  case isTrue hd  => exact ⟨ha, [content], List.flatten_singleton, hp⟩
  case isFalse hd =>
    rw [pieces_eq_rows, ← map_rows] at hp
    exact ⟨ha, _, flatten_rows_of_dvd (encodeBytes_dvd h hd), hp⟩

theorem each_encodeBytes_packs {contents : List Bytes} (ha : e.aborted = false)
    (h : (Logged.each encodeBytes e contents).value = (.ok (), e')) :
    e'.aborted = false ∧ ∃ parts : List Bytes, parts.flatten = contents.flatten ∧
      Packs e e' (parts.map (·.map (·.toUInt64))) := by
  induction contents generalizing e
  case nil                      => cases h; exact ⟨ha, [], rfl, .refl _⟩
  case cons content contents hi =>
    simp only [Logged.each_cons, Logged.value_bind] at h
    split at h
    case h_1 e₁ hs =>
      have ⟨ha₁, front, hf, hp⟩ := encodeBytes_packs hs
      have ⟨ha', rest, hr, hp'⟩ := hi ha₁ h
      refine ⟨ha', front ++ rest, ?_, ?_⟩
      · rw [List.flatten_append, hf, hr, List.flatten_cons]
      · exact List.map_append .. ▸ hp.trans hp'
    case h_2       => cases h

theorem bytes_of_finish {contents : List Bytes}
    (h : (Logged.each encodeBytes (ofConfig c) contents).value = (.ok (), e)) :
    ∃ bytes d s d', e.finish = .ok bytes ∧
      Decoder.ofSource (.ofBytes bytes) c.containsZero = (.ok d, s) ∧
      d.bytes = (.ok contents.flatten, d') := by
  have ⟨ha, parts, hp, hpk⟩ := each_encodeBytes_packs rfl h
  have ⟨bytes, d, s, ds, hf, hd, hm, hn, hds⟩ := hpk.opens ha
  rw [List.length_map] at hn
  have ⟨d', hb⟩ := Decoder.readAllBytes_admitted hm hpk.admits hn [] hds
  exact ⟨bytes, d, s, d', hf, hd, hp ▸ hb⟩

-- For any byte string and any state of an encoder, and for what is read back in the end.
theorem encodeBytes_by_rows (e : Encoder) (content : Bytes) :
    (e.config.Delimited → e.encodeBytes content = e.encode (content.map (·.toUInt64))) ∧
      (¬e.config.Delimited → e.config.sequenceLength.toNat ∣ content.length →
        e.aborted = false ∨ content ≠ [] →
        e.encodeBytes content = Logged.each encode e (e.config.rowsOf content)) ∧
      (¬e.config.Delimited → ¬e.config.sequenceLength.toNat ∣ content.length →
        e.aborted = false → e.encodeBytes content =
          pure (.error (.lengthMismatch e.config.sequenceLength.toNat content.length),
            { e with aborted := true })) ∧
      (e.aborted = true → e.encodeBytes content = pure (.error .encoderAborted, e)) ∧
      ∀ c contents e', (Logged.each encodeBytes (ofConfig c) contents).value = (.ok (), e') →
        ∃ bytes d s d', e'.finish = .ok bytes ∧
          Decoder.ofSource (.ofBytes bytes) c.containsZero = (.ok d, s) ∧
          d.bytes = (.ok contents.flatten, d') := by
  have hb (ha : e.aborted = true) : e.encodeBytes content = pure (.error .encoderAborted, e) :=
    perform_of_aborted ha (.bytes content)
  refine ⟨fun hd => encodeBytes_of_delimited hd content, fun hd hl hc => ?_,
    fun hd hl ha => encodeBytes_of_not_dvd ha hd hl, hb, fun _ _ _ => bytes_of_finish⟩
  cases ha : e.aborted
  case false => exact encodeBytes_of_dvd ha hd hl
  case true  =>
    have hc : content ≠ [] := hc.resolve_left (by simp [ha])
    rw [hb ha, each_encode_rowsOf_of_aborted ha hd hl hc]

-- Two pairs, a byte that is no pair, and what is read back of three byte strings, one empty.
theorem encodeBytes_by_rows_pairs :
    let c : Config := ⟨5, 2, true, by decide⟩
    ¬c.Delimited ∧
      (ofConfig c).encodeBytes [1, 2, 3, 4] = Logged.each encode (ofConfig c) [[1, 2], [3, 4]] ∧
      (ofConfig c).encodeBytes [1] =
        pure (.error (.lengthMismatch 2 1), { ofConfig c with aborted := true }) ∧
      ∃ e, (Logged.each encodeBytes (ofConfig c) [[1, 2, 3, 4], [], [5, 0]]).value = (.ok (), e) ∧
        ∃ bytes d s d', e.finish = .ok bytes ∧
          Decoder.ofSource (.ofBytes bytes) true = (.ok d, s) ∧
          d.bytes = (.ok [1, 2, 3, 4, 5, 0], d') := by
  intro c
  have hd : ¬c.Delimited := by decide
  obtain ⟨-, hr, -, -, hb⟩ := encodeBytes_by_rows (ofConfig c) [1, 2, 3, 4]
  obtain ⟨-, -, hm, -, -⟩ := encodeBytes_by_rows (ofConfig c) [1]
  have he : (Logged.each encodeBytes (ofConfig c) [[1, 2, 3, 4], [], [5, 0]]).value.1 = .ok () := by
    decide +kernel
  have hp := hr hd (by decide) (.inl rfl)
  exact ⟨hd, hp.trans (by decide +kernel), hm hd (by decide) rfl, _, Prod.ext he rfl,
    hb c _ _ (Prod.ext he rfl)⟩

-- After a failure, neither a byte that is no pair nor a byte string without any pair is judged.
theorem encodeBytes_aborted_pairs :
    let c : Config := ⟨5, 2, false, by decide⟩
    let e := ((ofConfig c).encode [1]).value.2
    ¬e.config.Delimited ∧ e.config.sequenceLength.toNat = 2 ∧
      (e.encodeBytes [1]).value.1 = .error .encoderAborted ∧
      (e.encodeBytes [1]).value.1 ≠ .error (.lengthMismatch 2 1) ∧
      e.encodeBytes [] ≠ Logged.each encode e (e.config.rowsOf []) := by
  decide +kernel

end Encoder
end Batch
end BitPacking
