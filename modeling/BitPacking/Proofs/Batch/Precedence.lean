import BitPacking.Proofs.Batch.Layout
import BitPacking.Proofs.Refusal
import BitPacking.Proofs.Runs
import Mathlib.Order.Bounds.Basic

namespace BitPacking

def largest : UInt64 :=
  .ofNat (UInt64.size - 1)

namespace Config

variable {c : Config} {value : UInt64} {values : List UInt64}

def Mismatches (c : Config) (values : List UInt64) : Prop :=
  ¬c.Delimited ∧ values.length ≠ c.sequenceLength.toNat

def Interrupts (c : Config) (values : List UInt64) : Prop :=
  c.Delimited ∧ c.containsZero = false ∧ 0 ∈ values

def Overruns (c : Config) (values : List UInt64) : Prop :=
  c.Delimited ∧ c.containsZero = true ∧ largest ∈ values

instance (c : Config) (values : List UInt64) : Decidable (c.Mismatches values) :=
  inferInstanceAs (Decidable (_ ∧ _))

instance (c : Config) (values : List UInt64) : Decidable (c.Interrupts values) :=
  inferInstanceAs (Decidable (_ ∧ _))

instance (c : Config) (values : List UInt64) : Decidable (c.Overruns values) :=
  inferInstanceAs (Decidable (_ ∧ _))

theorem isLeast_bits (c : Config) :
    IsLeast {w | IsValidWidth w ∧ c.effectiveMax.toNat < 2 ^ w} c.bits := by
  refine ⟨⟨c.isValidWidth_bits, c.effectiveMax_lt⟩, ?_⟩
  rintro w ⟨hw, hlt⟩
  rw [← Nat.one_shiftLeft] at hlt
  exact (significantBits_le_iff hw.1).2 hlt

theorem overflows_iff : c.Overflows value ↔ c.containsZero = true ∧ value = largest := by
  have hl : largest.toNat + 1 = UInt64.size := by decide
  have hv := value.toNat_lt
  rw [Overflows, ← UInt64.toNat_inj]
  refine and_congr_right fun _ => ?_
  simp only [UInt64.size] at hl ⊢
  omega

theorem stored_eq_delimiter_iff (h : ¬c.Overflows value) :
    c.stored value = delimiter ↔ c.containsZero = false ∧ value = 0 := by
  have hs := toNat_stored h
  rw [← UInt64.toNat_inj, ← UInt64.toNat_inj, hs]
  cases c.containsZero <;> simp [delimiter]

end Config

namespace Batch.Encoder

variable {e e' : Encoder} {value : UInt64} {values : List UInt64} {cause : Error}
variable {events : List Event} {call : Call}

theorem each_reserve_of_interrupts (h : e.config.Interrupts values) :
    Logged.each reserve e values = pure (.error (.reservedValue 0), e) := by
  obtain ⟨-, hz, hm⟩ := h
  have ho (v : UInt64) : ¬e.config.Overflows v := fun h => Bool.noConfusion (hz.symm.trans h.left)
  have hr := reserve_of_delimiter (ho 0) ((Config.stored_eq_delimiter_iff (ho 0)).2 ⟨hz, rfl⟩)
  refine Logged.each_of_mem hr (fun v hv => ?_) hm
  exact reserve_of_ne (ho v) fun h => hv ((Config.stored_eq_delimiter_iff (ho v)).1 h).2

theorem each_reserve_of_overruns (h : e.config.Overruns values) :
    Logged.each reserve e values = ⟨(.error (.valueTooLarge largest e.config.bits),
      { e with overflowWarnings := e.overflowWarnings + 1 }), [e.config.report largest]⟩ := by
  obtain ⟨-, hz, hm⟩ := h
  have hl := Config.overflows_iff.2 ⟨hz, rfl⟩
  have hr := reserve_of_overflows hl
  rw [Config.refusal, Config.told, if_pos hl] at hr
  refine Logged.each_of_mem hr (fun v hv => ?_) hm
  have ho : ¬e.config.Overflows v := fun h => hv (Config.overflows_iff.1 h).2
  refine reserve_of_ne ho fun h => ?_
  rw [((Config.stored_eq_delimiter_iff ho).1 h).1] at hz
  cases hz

theorem each_reserve_of_not (hi : ¬e.config.Interrupts values) (ho : ¬e.config.Overruns values)
    (hd : e.config.Delimited) : Logged.each reserve e values = pure (.ok (), e) := by
  refine Logged.each_of_forall fun v hm => ?_
  have hv : ¬e.config.Overflows v := fun h => by
    have ⟨hz, hl⟩ := Config.overflows_iff.1 h
    exact ho ⟨hd, hz, hl ▸ hm⟩
  refine reserve_of_ne hv fun h => ?_
  have ⟨hz, hl⟩ := (Config.stored_eq_delimiter_iff hv).1 h
  exact hi ⟨hd, hz, hl ▸ hm⟩

theorem guarded_of_error {step : Encoder → Logged (Except Error Unit × Encoder)}
    (ha : e.aborted = false) (h : step e = ⟨(.error cause, e'), events⟩) :
    e.guarded step = ⟨(.error cause, { e' with aborted := true }), events⟩ := by
  rw [guarded, ha, h]
  simp [bind, pure]

theorem guarded_of_ok {step : Encoder → Logged (Except Error Unit × Encoder)}
    (ha : e.aborted = false) (h : step e = ⟨(.ok (), e'), events⟩) :
    e.guarded step = ⟨(.ok (), e'), events⟩ := by
  rw [guarded, ha, h]
  simp [bind, pure]

-- What is told without packing anything.
theorem append_of_mismatches (h : e.config.Mismatches values) : e.append values =
    pure (.error (.lengthMismatch e.config.sequenceLength.toNat values.length), e) :=
  if_pos h

theorem append_of_reserve_error (hd : e.config.Delimited)
    (h : Logged.each reserve e values = ⟨(.error cause, e'), events⟩) :
    e.append values = ⟨(.error cause, e'), events⟩ := by
  rw [append, if_neg fun hm => hm.1 hd, if_pos hd, h]
  simp only [bind, pure, List.append_nil]

theorem append_eq_store (hm : ¬e.config.Mismatches values) (hi : ¬e.config.Interrupts values)
    (ho : ¬e.config.Overruns values) : e.append values = e.store values := by
  refine (if_neg hm).trans ?_
  split
  case isFalse   => rfl
  case isTrue hd => rw [each_reserve_of_not hi ho hd, pure_bind]

theorem each_pack_value (e : Encoder) (values : List UInt64) :
    ∃ e₁, e₁.sequenceCount = e.sequenceCount ∧ (Logged.each pack e values).value =
      (match values.find? (e.config.TooLarge ·) with
        | none   => .ok ()
        | some v => .error (e.config.refusal v), e₁) := by
  induction values generalizing e
  case nil          => exact ⟨e, rfl, rfl⟩
  case cons v vs hi =>
    by_cases hv : e.config.TooLarge v
    case pos =>
      have hf : (v :: vs).find? (e.config.TooLarge ·) = some v :=
        List.find?_cons_of_pos (by simpa using hv)
      rw [Logged.each_cons_of_error (pack_of_tooLarge hv), hf]
      exact ⟨{ e with overflowWarnings := e.overflowWarnings + 1 }, rfl, rfl⟩
    case neg =>
      have ⟨e₁, hp, _⟩ := pack_of_holds (Config.holds_iff.2 hv)
      have ⟨_, hg⟩ := pack_ok (congrArg Logged.value hp)
      have ⟨e₂, hn, hx⟩ := hi e₁
      have hf : (v :: vs).find? (e.config.TooLarge ·) = vs.find? (e.config.TooLarge ·) :=
        List.find?_cons_of_neg (by simpa using hv)
      rw [hg.config] at hx
      rw [hf, Logged.each_cons, hp]
      exact ⟨e₂, hn.trans hg.sequenceCount, hx⟩

-- What a sequence comes to that has nothing against it but, perhaps, values that are too large.
def Packed (e : Encoder) (values : List UInt64) (r : Except Error Unit) (e' : Encoder) : Prop :=
  match values.find? (e.config.TooLarge ·) with
  | none   => r = .ok () ∧ e'.sequenceCount.toNat = e.sequenceCount.toNat + 1
  | some v => r = .error (e.config.refusal v) ∧ e'.sequenceCount = e.sequenceCount

theorem store_packed (hc : e.sequenceCount.toNat + 1 < UInt32.size) (values : List UInt64) :
    Packed e values (e.store values).value.1 (e.store values).value.2 := by
  have ⟨e₁, hn, hx⟩ := each_pack_value e values
  rw [store, if_pos hc, Packed]
  simp only [Logged.value_bind, hx]
  split
  case h_1 =>
    refine ⟨rfl, ?_⟩
    show (e₁.sequenceCount + 1).toNat = _
    rw [hn, UInt32.toNat_add]
    exact Nat.mod_eq_of_lt hc
  case h_2 => exact ⟨rfl, hn⟩

theorem encode_packed (ha : e.aborted = false) (hc : e.sequenceCount.toNat + 1 < UInt32.size)
    (hm : ¬e.config.Mismatches values) (hi : ¬e.config.Interrupts values)
    (ho : ¬e.config.Overruns values) :
    Packed e values (e.encode values).value.1 (e.encode values).value.2 := by
  have hs := store_packed hc values
  rw [← append_eq_store hm hi ho] at hs
  match hx : e.append values with
  | ⟨(.ok (), e'), events⟩     => rwa [encode, guarded_of_ok ha hx, ← hx]
  | ⟨(.error cause, e'), events⟩ =>
    rw [hx] at hs
    rw [encode, guarded_of_error ha hx]
    exact hs

theorem perform_of_aborted (h : e.aborted = true) (call : Call) :
    call.perform e = pure (.error .encoderAborted, e) := by
  cases call
  case sequence values => exact if_pos h
  case bytes content   => exact if_pos h

theorem aborted_of_guarded {step : Encoder → Logged (Except Error Unit × Encoder)}
    (h : (e.guarded step).value = (.error cause, e')) : e'.aborted = true := by
  simp only [guarded] at h
  split at h
  case isTrue ha  => cases h; exact ha
  case isFalse ha =>
    simp only [Logged.value_bind] at h
    split at h
    case h_1 => cases h
    case h_2 => cases h; rfl

theorem aborted_of_perform (h : (call.perform e).value = (.error cause, e')) :
    e'.aborted = true := by
  cases call
  case sequence values => exact aborted_of_guarded h
  case bytes content   => exact aborted_of_guarded h

-- For any sequence and any encoder that takes sequences, and for what comes after any failure.
theorem encode_by_policy (ha : e.aborted = false) (hc : e.sequenceCount.toNat + 1 < UInt32.size)
    (values : List UInt64) :
    IsLeast {w | IsValidWidth w ∧ e.config.effectiveMax.toNat < 2 ^ w} e.config.bits ∧
      (e.config.Mismatches values → (e.encode values).value =
        (.error (.lengthMismatch e.config.sequenceLength.toNat values.length),
          { e with aborted := true })) ∧
      (e.config.Interrupts values → (e.encode values).value =
        (.error (.reservedValue 0), { e with aborted := true })) ∧
      (e.config.Overruns values → (e.encode values).value =
        (.error (.valueTooLarge largest e.config.bits),
          { e with aborted := true, overflowWarnings := e.overflowWarnings + 1 })) ∧
      (¬e.config.Mismatches values → ¬e.config.Interrupts values → ¬e.config.Overruns values →
        Packed e values (e.encode values).value.1 (e.encode values).value.2) ∧
      ∀ (e₀ e' : Encoder) (call : Call) cause, (call.perform e₀).value = (.error cause, e') →
        e'.finish = .error .encoderAborted ∧ ∀ calls, Logged.run Call.perform e' calls =
          pure (calls.map fun _ => .error .encoderAborted, e') := by
  refine ⟨e.config.isLeast_bits, fun hm => ?_, fun hi => ?_, fun ho => ?_,
    encode_packed ha hc, fun e₀ e' call cause h => ?_⟩
  case refine_1 => rw [encode, guarded_of_error ha (append_of_mismatches hm)]
  case refine_2 =>
    have hr := append_of_reserve_error hi.1 (each_reserve_of_interrupts hi)
    rw [encode, guarded_of_error ha hr]
  case refine_3 =>
    have hr := append_of_reserve_error ho.1 (each_reserve_of_overruns ho)
    rw [encode, guarded_of_error ha hr]
  case refine_4 =>
    have ha' := aborted_of_perform h
    exact ⟨if_pos ha', fun calls => Logged.run_of_stuck (perform_of_aborted ha') calls⟩

-- A value with no room in three bits, and behind it one that reads as the end of its sequence.
theorem encode_by_policy_reserved :
    let c : Config := ⟨5, 0, false, by decide⟩
    let e : Encoder := { ofConfig c with sequenceCount := 4294967294, overflowWarnings := 7 }
    e.aborted = false ∧ e.sequenceCount.toNat + 1 < UInt32.size ∧ c.TooLarge 9 ∧
      c.Interrupts [9, 0] ∧
      (e.encode [9, 0]).value = (.error (.reservedValue 0), { e with aborted := true }) ∧
      ∀ calls, Logged.run Call.perform { e with aborted := true } calls =
        pure (calls.map fun _ => .error .encoderAborted, { e with aborted := true }) := by
  intro c e
  have ha : e.aborted = false := rfl
  have hc : e.sequenceCount.toNat + 1 < UInt32.size := by decide
  have hi : c.Interrupts [9, 0] := by decide
  obtain ⟨-, -, hr, -, -, hp⟩ := encode_by_policy ha hc [9, 0]
  exact ⟨ha, hc, by decide, hi, hr hi, (hp e _ (.sequence [9, 0]) _ (hr hi)).2⟩

end Batch.Encoder
end BitPacking
