import BitPacking.Proofs.Batch.Encoder
import BitPacking.Proofs.Stream.Encoder

namespace BitPacking

namespace Config

variable {c : Config} {value : UInt64} {values : List UInt64}

-- What is reported when values are packed.
def warnings (c : Config) (values : List UInt64) : List Event :=
  values.flatMap fun v =>
    if c.stored v ≤ c.effectiveMax then [] else [.aboveMaximum (c.stored v) c.effectiveMax]

theorem warnings_cons (c : Config) (value : UInt64) (values : List UInt64) :
    c.warnings (value :: values) = c.warnings [value] ++ c.warnings values := by
  simp [warnings]

theorem remap_of_holds (h : c.Holds value) : c.remap value = pure (.ok (c.stored value)) := by
  have hu := h.unmap_stored
  rw [remap, stored]
  split
  case isTrue hz  => simp_all
  case isFalse hz =>
    have hz : c.containsZero = true := by simpa using hz
    rw [if_pos hz]
    split
    case isTrue  => rfl
    case isFalse hv =>
      -- The largest number has no stored form: it would be the delimiter, which reads as zero.
      have hm : value + 1 = 0 := by
        have := value.toNat_lt
        apply UInt64.toNat_inj.1
        rw [UInt64.toNat_add]
        simp [UInt64.size] at hv ⊢
        omega
      rw [stored, if_pos hz, hm] at hu
      simp [Config.unmap, BitPacking.unmap] at hu
      subst hu
      exact absurd (by decide) hv

theorem remapNonDelimiter_of_holds (h : c.Holds value) (hd : c.stored value ≠ delimiter) :
    c.remapNonDelimiter value = pure (.ok (c.stored value)) := by
  rw [remapNonDelimiter, remap_of_holds h, pure_bind]
  simp only [if_neg hd]

theorem checkStored_of_holds (h : c.Holds value) :
    ∃ above, c.checkStored (c.stored value) = ⟨.ok above, c.warnings [value]⟩ ∧
      above.toNat = (c.warnings [value]).length := by
  have hb : ¬c.bits < significantBits (c.stored value) := by
    rw [not_lt, significantBits_le_iff c.bits_pos, Nat.one_shiftLeft]
    exact h.stored_lt
  rw [checkStored, warnings, List.flatMap_singleton]
  split
  case isTrue  => exact ⟨false, rfl, rfl⟩
  case isFalse => exact ⟨true, rfl, rfl⟩

theorem warnings_eq_nil (h : ∀ v ∈ values, c.stored v ≤ c.effectiveMax) : c.warnings values = [] :=
  List.flatMap_eq_nil_iff.2 fun v hv => if_pos (h v hv)

end Config

namespace Batch.Encoder

variable {e : Encoder} {value : UInt64} {values : List UInt64}

theorem reserve_of_holds (h : e.config.Holds value) (hd : e.config.stored value ≠ delimiter) :
    e.reserve value = pure (.ok (), e) := by
  rw [reserve, Config.remapNonDelimiter_of_holds h hd, pure_bind]

theorem each_reserve_of_holds (h : ∀ v ∈ values, e.config.Holds v)
    (hd : ∀ v ∈ values, e.config.stored v ≠ delimiter) :
    Logged.each reserve e values = pure (.ok (), e) := by
  induction values
  case nil          => rfl
  case cons v vs hi =>
    have ⟨hv, hvs⟩ := List.forall_mem_cons.1 h
    have ⟨hvd, hvsd⟩ := List.forall_mem_cons.1 hd
    rw [Logged.each_cons, reserve_of_holds hv hvd, pure_bind]
    exact hi hvs hvsd

theorem pack_of_holds (h : e.config.Holds value) :
    ∃ e', e.pack value = ⟨(.ok (), e'), e.config.warnings [value]⟩ ∧
      e'.overflowWarnings = e.overflowWarnings + (e.config.warnings [value]).length := by
  have ⟨above, hs, hn⟩ := Config.checkStored_of_holds h
  rw [pack, Config.remap_of_holds h, pure_bind]
  simp only [hs, bind, pure, List.append_nil]
  exact ⟨_, rfl, congrArg (e.overflowWarnings + ·) hn⟩

theorem each_pack_of_holds (h : ∀ v ∈ values, e.config.Holds v) :
    ∃ e', Logged.each pack e values = ⟨(.ok (), e'), e.config.warnings values⟩ ∧
      e'.overflowWarnings = e.overflowWarnings + (e.config.warnings values).length := by
  induction values generalizing e
  case nil          => exact ⟨e, rfl, rfl⟩
  case cons v vs hi =>
    have ⟨hv, hvs⟩ := List.forall_mem_cons.1 h
    have ⟨e₁, hp, hn₁⟩ := pack_of_holds hv
    have hc := (pack_ok (congrArg Logged.value hp)).2.config
    have ⟨e', hps, hn⟩ := hi (e := e₁) (hc ▸ hvs)
    rw [hc] at hps hn
    refine ⟨e', ?_, ?_⟩
    · rw [Logged.each_cons, hp]
      simp only [bind, hps]
      rw [← e.config.warnings_cons v vs]
    · rw [hn, hn₁, e.config.warnings_cons v vs, List.length_append, Nat.add_assoc]

theorem encode_of_admits (ha : e.aborted = false) (hc : e.sequenceCount.toNat + 1 < UInt32.size)
    (h : e.config.Admits values) :
    ∃ e', e.encode values = ⟨(.ok (), e'), e.config.warnings values⟩ ∧
      e'.overflowWarnings = e.overflowWarnings + (e.config.warnings values).length := by
  have ⟨e₁, hp, hn⟩ := each_pack_of_holds h.holds
  have hs : e.store values = ⟨(.ok (), e₁.endSequence), e.config.warnings values⟩ := by
    rw [store, if_pos hc, hp]
    simp only [bind, pure, List.append_nil]
  have happ : e.append values = ⟨(.ok (), e₁.endSequence), e.config.warnings values⟩ := by
    rw [append]
    by_cases hd : e.config.Delimited
    case pos =>
      rw [each_reserve_of_holds h.holds (h.no_delimiter hd), pure_bind, ← hs]
      simp [hd]
    case neg => simp [hd, h.length hd, hs]
  refine ⟨e₁.endSequence, ?_, hn⟩
  rw [encode, guarded, happ, ha]
  simp [bind, pure]

theorem each_encode_of_admits {sequences : List (List UInt64)} (ha : e.aborted = false)
    (hc : e.sequenceCount.toNat + sequences.length < UInt32.size)
    (h : ∀ s ∈ sequences, e.config.Admits s) :
    ∃ e', Logged.each encode e sequences =
        ⟨(.ok (), e'), sequences.flatMap e.config.warnings⟩ ∧
      e'.overflowWarnings =
        e.overflowWarnings + (sequences.flatMap e.config.warnings).length := by
  induction sequences generalizing e
  case nil          => exact ⟨e, rfl, rfl⟩
  case cons s ss hi =>
    have ⟨hs, hss⟩ := List.forall_mem_cons.1 h
    rw [List.length_cons] at hc
    have ⟨e₁, hx, hn₁⟩ := encode_of_admits ha (by omega) hs
    have ⟨ha₁, hadds⟩ := encode_ok (congrArg Logged.value hx)
    have ⟨e', hxs, hn⟩ := hi ha₁ (by rw [hadds.sequenceCount]; omega) (hadds.config ▸ hss)
    rw [hadds.config] at hxs hn
    refine ⟨e', ?_, ?_⟩
    · rw [Logged.each_cons, hx]
      simp only [bind, hxs, List.flatMap_cons]
    · rw [hn, hn₁, List.flatMap_cons, List.length_append, Nat.add_assoc]

end Batch.Encoder

namespace Stream.Encoder

variable {σ : Type} {s : Sink σ} {e : Encoder} {c : Config} {value : UInt64}
variable {values past : List UInt64}

theorem ofConfig_overflowWarnings (h : ofConfig c = .ok e) : e.overflowWarnings = 0 := by
  rw [ofConfig] at h
  split at h
  case isTrue  => cases h; rfl
  case isFalse => cases h

theorem pack_of_accepts (h : e.config.Accepts value) :
    ∃ e', e.pack value = ⟨(.ok (), e'), e.config.warnings [value]⟩ ∧
      e'.overflowWarnings = e.overflowWarnings + (e.config.warnings [value]).length := by
  have ⟨above, hs, hn⟩ := Config.checkStored_of_holds h.toHolds
  rw [pack, Config.remapNonDelimiter_of_holds h.toHolds h.no_delimiter, pure_bind]
  simp only [hs, bind, pure, List.append_nil]
  exact ⟨_, rfl, congrArg (e.overflowWarnings + ·) hn⟩

theorem handOver_steady (e : Encoder) (hs : s.behaviour.Steady) :
    ∃ e' s', e.handOver s = (.ok (), e', s') ∧ e'.overflowWarnings = e.overflowWarnings := by
  simp only [handOver]
  split
  case isTrue  => exact ⟨e, s, rfl, rfl⟩
  case isFalse =>
    have hw := Sink.writeAll_steady hs e.writer.takeComplete.1
    split
    case h_1    => exact ⟨_, _, rfl, rfl⟩
    case h_2 hx => rw [hx] at hw; cases hw

theorem push_of_accepts (hr : Running c past e s) (hs : s.behaviour.Steady)
    (h : c.Accepts value) :
    ∃ e' s', e.push s value = ⟨(.ok (), e', s'), c.warnings [value]⟩ ∧
      e'.overflowWarnings = e.overflowWarnings + (c.warnings [value]).length := by
  have ⟨e₁, hp, hn₁⟩ := pack_of_accepts (hr.config ▸ h)
  have ⟨e', s', hh, hn⟩ := handOver_steady e₁ hs
  have hf : ¬e.isFinished = true := by simp [isFinished, hr.phase]
  rw [hr.config] at hp hn₁
  refine ⟨e', s', ?_, hn.trans hn₁⟩
  rw [push, if_neg hf, hp]
  simp only [bind, hh, pure, List.append_nil]

theorem extend_of_accepts (hr : Running c past e s) (hs : s.behaviour.Steady)
    (h : ∀ v ∈ values, c.Accepts v) :
    ∃ e' s', e.extend s values = ⟨(.ok (), e', s'), c.warnings values⟩ ∧
      e'.overflowWarnings = e.overflowWarnings + (c.warnings values).length := by
  induction values generalizing e s past
  case nil          => exact ⟨e, s, rfl, rfl⟩
  case cons v vs hi =>
    have ⟨hv, hvs⟩ := List.forall_mem_cons.1 h
    have ⟨e₁, s₁, hp, hn₁⟩ := push_of_accepts hr hs hv
    cases push_running hr (congrArg Logged.value hp)
    case inr hx => have ⟨_, hx, _⟩ := hx; cases hx
    case inl hx =>
      have ⟨_, hr₁, hb⟩ := hx
      have ⟨e', s', hps, hn⟩ := hi hr₁ (hb ▸ hs) hvs
      refine ⟨e', s', ?_, ?_⟩
      · simp only [extend, Logged.each_cons, hp, bind]
        rw [extend] at hps
        simp only [hps]
        rw [← c.warnings_cons v vs]
      · rw [hn, hn₁, c.warnings_cons v vs, List.length_append, Nat.add_assoc]

end Stream.Encoder
end BitPacking
