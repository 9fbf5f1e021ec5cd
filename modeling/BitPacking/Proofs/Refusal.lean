import BitPacking.Proofs.Acceptance

namespace BitPacking

namespace Config

variable {c : Config} {value : UInt64} {values : List UInt64}

-- A value that has no stored form, as that would be one more than the largest number.
def Overflows (c : Config) (value : UInt64) : Prop :=
  c.containsZero = true ∧ UInt64.size ≤ value.toNat + 1

def TooLarge (c : Config) (value : UInt64) : Prop :=
  c.Overflows value ∨ 2 ^ c.bits ≤ (c.stored value).toNat

instance (c : Config) (value : UInt64) : Decidable (c.Overflows value) :=
  inferInstanceAs (Decidable (_ ∧ _))

instance (c : Config) (value : UInt64) : Decidable (c.TooLarge value) :=
  inferInstanceAs (Decidable (_ ∨ _))

def told (c : Config) (value : UInt64) : UInt64 :=
  if c.Overflows value then value else c.stored value

def refusal (c : Config) (value : UInt64) : Error :=
  .valueTooLarge (c.told value) c.bits

def report (c : Config) (value : UInt64) : Event :=
  .aboveMaximum (c.told value) c.effectiveMax

def above (c : Config) (values : List UInt64) : List UInt64 :=
  values.filter (c.maxValue < ·)

theorem above_cons_of_lt (h : c.maxValue < value) :
    c.above (value :: values) = value :: c.above values :=
  List.filter_cons_of_pos (decide_eq_true h)

theorem above_cons_of_le (h : value ≤ c.maxValue) : c.above (value :: values) = c.above values :=
  List.filter_cons_of_neg (by simpa using h)

theorem above_append (c : Config) (values values' : List UInt64) :
    c.above (values ++ values') = c.above values ++ c.above values' :=
  List.filter_append ..

theorem toNat_stored (h : ¬c.Overflows value) :
    (c.stored value).toNat = value.toNat + c.containsZero.toNat := by
  rw [stored]
  split
  case isTrue hz  =>
    have hv : value.toNat + 1 < UInt64.size := by
      by_contra hn
      exact h ⟨hz, not_lt.1 hn⟩
    rw [UInt64.toNat_add, hz]
    exact Nat.mod_eq_of_lt hv
  case isFalse hz => simp [hz]

theorem stored_le_effectiveMax_iff (h : ¬c.Overflows value) :
    c.stored value ≤ c.effectiveMax ↔ value ≤ c.maxValue := by
  rw [UInt64.le_iff_toNat_le, UInt64.le_iff_toNat_le, toNat_stored h, toNat_effectiveMax]
  exact Nat.add_le_add_iff_right

theorem lt_of_tooLarge (h : c.TooLarge value) : c.maxValue < value := by
  by_cases ho : c.Overflows value
  case pos =>
    have hf := c.fits ho.left
    have hv := ho.right
    exact UInt64.lt_iff_toNat_lt.2 (by omega)
  case neg =>
    have hv := h.resolve_left ho
    have hm := c.effectiveMax_lt
    rw [← UInt64.not_le, ← stored_le_effectiveMax_iff ho, UInt64.le_iff_toNat_le]
    omega

theorem remap_of_overflows (h : c.Overflows value) :
    c.remap value = ⟨.error (c.refusal value), [c.report value]⟩ := by
  rw [remap, h.left, if_neg (by decide), if_neg (not_lt.2 h.right), refusal, report, told, if_pos h]
  rfl

theorem remap_of_not_overflows (h : ¬c.Overflows value) :
    c.remap value = pure (.ok (c.stored value)) := by
  rw [remap, stored]
  split
  case isTrue hz  => simp_all
  case isFalse hz =>
    have hz : c.containsZero = true := by simpa using hz
    rw [if_pos hz, if_pos (not_le.1 fun hv => h ⟨hz, hv⟩)]

theorem checkStored_of_le (h : 2 ^ c.bits ≤ (c.stored value).toNat) :
    c.checkStored (c.stored value) = ⟨.error (.valueTooLarge (c.stored value) c.bits),
      [.aboveMaximum (c.stored value) c.effectiveMax]⟩ := by
  have hm : ¬c.stored value ≤ c.effectiveMax := by
    have := c.effectiveMax_lt
    rw [UInt64.le_iff_toNat_le]
    omega
  have hb : c.bits < significantBits (c.stored value) := by
    rw [← not_le, significantBits_le_iff c.bits_pos, Nat.one_shiftLeft]
    exact not_lt.2 h
  rw [checkStored, if_neg hm, if_pos hb]
  rfl

theorem holds_iff : c.Holds value ↔ ¬c.TooLarge value where
  mp h  := by
    rintro (ho | hb)
    case inl =>
      have hr := (remap_of_overflows ho).symm.trans (remap_of_holds h)
      cases congrArg Logged.value hr
    case inr => exact absurd h.stored_lt (not_lt.2 hb)
  mpr h := by
    have ⟨ho, hb⟩ := not_or.1 h
    exact ⟨unmap_of_remap (congrArg Logged.value (remap_of_not_overflows ho)), not_le.1 hb⟩

theorem warnings_eq_map_report (h : ∀ v ∈ values, c.Holds v) :
    c.warnings values = (c.above values).map c.report := by
  induction values
  case nil          => rfl
  case cons v vs hi =>
    obtain ⟨hv, hvs⟩ := List.forall_mem_cons.1 h
    have ho : ¬c.Overflows v := fun ho => holds_iff.1 hv (.inl ho)
    rw [warnings_cons, hi hvs, warnings, List.flatMap_singleton]
    simp only [stored_le_effectiveMax_iff ho]
    split
    case isTrue hm  => rw [above_cons_of_le hm, List.nil_append]
    case isFalse hm =>
      rw [above_cons_of_lt (UInt64.not_le.1 hm), List.map_cons, report, told, if_neg ho]
      rfl

end Config

namespace Batch.Encoder

variable {e : Encoder} {value : UInt64}

theorem pack_of_tooLarge (h : e.config.TooLarge value) :
    e.pack value = ⟨(.error (e.config.refusal value),
      { e with overflowWarnings := e.overflowWarnings + 1 }), [e.config.report value]⟩ := by
  by_cases ho : e.config.Overflows value
  case pos => rw [pack, Config.remap_of_overflows ho]; rfl
  case neg =>
    rw [pack, Config.remap_of_not_overflows ho, pure_bind]
    simp only [Config.checkStored_of_le (h.resolve_left ho), Config.refusal, Config.report,
      Config.told, if_neg ho]
    rfl

theorem reserve_of_overflows (h : e.config.Overflows value) :
    e.reserve value = ⟨(.error (e.config.refusal value),
      { e with overflowWarnings := e.overflowWarnings + 1 }), [e.config.report value]⟩ := by
  rw [reserve, Config.remapNonDelimiter, Config.remap_of_overflows h]
  rfl

theorem reserve_of_delimiter (h : ¬e.config.Overflows value)
    (hd : e.config.stored value = delimiter) :
    e.reserve value = pure (.error (.reservedValue value), e) := by
  rw [reserve, Config.remapNonDelimiter, Config.remap_of_not_overflows h, pure_bind]
  simp only [if_pos hd]
  rfl

theorem reserve_of_ne (h : ¬e.config.Overflows value) (hd : e.config.stored value ≠ delimiter) :
    e.reserve value = pure (.ok (), e) := by
  rw [reserve, Config.remapNonDelimiter, Config.remap_of_not_overflows h, pure_bind]
  simp only [if_neg hd]
  rfl

end Batch.Encoder

namespace Stream.Encoder

variable {e : Encoder} {value : UInt64}

theorem pack_of_tooLarge (h : e.config.TooLarge value) :
    e.pack value = ⟨(.error (e.config.refusal value),
      { e with overflowWarnings := e.overflowWarnings + 1 }), [e.config.report value]⟩ := by
  by_cases ho : e.config.Overflows value
  case pos => rw [pack, Config.remapNonDelimiter, Config.remap_of_overflows ho]; rfl
  case neg =>
    have hb := h.resolve_left ho
    have hd : e.config.stored value ≠ delimiter := fun hd => by
      rw [hd] at hb
      exact absurd (Nat.two_pow_pos e.config.bits) (not_lt.2 hb)
    rw [pack, Config.remapNonDelimiter, Config.remap_of_not_overflows ho, pure_bind]
    simp only [if_neg hd, pure_bind, Config.checkStored_of_le hb, Config.refusal, Config.report,
      Config.told, if_neg ho]
    rfl

theorem pack_of_delimiter (h : ¬e.config.Overflows value)
    (hd : e.config.stored value = delimiter) :
    e.pack value = pure (.error (.reservedValue value), e) := by
  rw [pack, Config.remapNonDelimiter, Config.remap_of_not_overflows h, pure_bind]
  simp only [if_pos hd]
  rfl

end Stream.Encoder
end BitPacking
