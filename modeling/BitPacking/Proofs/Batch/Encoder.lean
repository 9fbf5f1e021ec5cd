import BitPacking.Batch.Encoder
import BitPacking.Proofs.Bits.Writer
import BitPacking.Proofs.Config
import BitPacking.Proofs.Header

namespace BitPacking

namespace Config

def sequence (c : Config) (values : List UInt64) : List Bool :=
  values.flatMap c.element ++ if c.Delimited then c.endMark else []

-- A sequence that can be told from what follows it: it has the declared length, or no value in it
-- reads back as the delimiter.
structure Admits (c : Config) (values : List UInt64) : Prop where
  holds        : ∀ v ∈ values, c.Holds v
  length       : ¬c.Delimited → values.length = c.sequenceLength.toNat
  no_delimiter : c.Delimited → ∀ v ∈ values, c.stored v ≠ delimiter

end Config

namespace Batch.Encoder

structure Grows (e e' : Encoder) (ds : List Bool) : Prop where
  config        : e'.config = e.config
  sequenceCount : e'.sequenceCount = e.sequenceCount
  aborted       : e'.aborted = e.aborted
  digits        : e'.writer.digits = e.writer.digits ++ ds

variable {e e' e₁ : Encoder} {value : UInt64} {values : List UInt64} {ds ds' : List Bool}

theorem Grows.refl (e : Encoder) : Grows e e [] :=
  ⟨rfl, rfl, rfl, (List.append_nil _).symm⟩

theorem Grows.trans (h : Grows e e₁ ds) (h' : Grows e₁ e' ds') : Grows e e' (ds ++ ds') where
  config        := h'.config.trans h.config
  sequenceCount := h'.sequenceCount.trans h.sequenceCount
  aborted       := h'.aborted.trans h.aborted
  digits        := by rw [h'.digits, h.digits, List.append_assoc]

theorem reserve_ok (h : (e.reserve value).value = (.ok (), e')) :
    e' = e ∧ e.config.stored value ≠ delimiter := by
  simp only [reserve, Logged.value_bind] at h
  split at h
  case h_1 s hr =>
    cases h
    have ⟨hs, hd⟩ := Config.remap_of_remapNonDelimiter hr
    exact ⟨rfl, Config.stored_of_remap hs ▸ hd⟩
  case h_2      => cases h

theorem pack_ok (h : (e.pack value).value = (.ok (), e')) :
    e.config.Holds value ∧ Grows e e' (e.config.element value) := by
  simp only [pack, Logged.value_bind] at h
  split at h
  case h_1      => cases h
  case h_2 s hr =>
    simp only [Logged.value_bind] at h
    split at h
    case h_1      => cases h
    case h_2 b hs =>
      cases h
      have hv := Config.stored_of_remap hr
      refine ⟨Config.holds_of_remap hr hs, rfl, rfl, rfl, ?_⟩
      rw [Bits.Writer.digits_put, hv, Config.element]

theorem each_reserve_ok (h : (Logged.each reserve e values).value = (.ok (), e')) :
    e' = e ∧ ∀ v ∈ values, e.config.stored v ≠ delimiter := by
  induction values generalizing e
  case nil          => cases h; exact ⟨rfl, by simp⟩
  case cons v vs hi =>
    simp only [Logged.each_cons, Logged.value_bind] at h
    split at h
    case h_1 e₁ hr =>
      have ⟨he, hv⟩ := reserve_ok hr
      subst he
      have ⟨he', hvs⟩ := hi h
      exact ⟨he', List.forall_mem_cons.2 ⟨hv, hvs⟩⟩
    case h_2       => cases h

theorem each_pack_ok (h : (Logged.each pack e values).value = (.ok (), e')) :
    (∀ v ∈ values, e.config.Holds v) ∧ Grows e e' (values.flatMap e.config.element) := by
  induction values generalizing e
  case nil          => cases h; exact ⟨by simp, .refl _⟩
  case cons v vs hi =>
    simp only [Logged.each_cons, Logged.value_bind] at h
    split at h
    case h_1 e₁ hp =>
      have ⟨hv, hg⟩ := pack_ok hp
      have ⟨hvs, hgs⟩ := hi h
      rw [hg.config] at hvs hgs
      exact ⟨List.forall_mem_cons.2 ⟨hv, hvs⟩, hg.trans hgs⟩
    case h_2       => cases h

-- An accepted sequence is admitted, counted, and appended as a whole.
structure Adds (e e' : Encoder) (values : List UInt64) : Prop where
  admits        : e.config.Admits values
  config        : e'.config = e.config
  sequenceCount : e'.sequenceCount.toNat = e.sequenceCount.toNat + 1
  digits        : e'.writer.digits = e.writer.digits ++ e.config.sequence values

theorem endSequence_adds (h : Grows e e₁ (values.flatMap e.config.element))
    (ha : e.config.Admits values) (hc : e.sequenceCount.toNat + 1 < UInt32.size) :
    Adds e e₁.endSequence values where
  admits        := ha
  config        := h.config
  sequenceCount := by
    rw [endSequence, h.sequenceCount, UInt32.toNat_add]
    exact Nat.mod_eq_of_lt hc
  digits        := by
    simp only [endSequence, h.config, Config.sequence]
    split
    case isTrue  => rw [Bits.Writer.digits_put, h.digits, List.append_assoc, Config.endMark]
    case isFalse => rw [h.digits, List.append_nil]

theorem store_ok (ha : (∀ v ∈ values, e.config.Holds v) → e.config.Admits values)
    (h : (e.store values).value = (.ok (), e')) : e'.aborted = e.aborted ∧ Adds e e' values := by
  simp only [store] at h
  split at h
  case isFalse   => cases h
  case isTrue hc =>
    simp only [Logged.value_bind] at h
    split at h
    case h_1       => cases h
    case h_2 e₁ hp =>
      cases h
      have ⟨hs, hg⟩ := each_pack_ok hp
      exact ⟨hg.aborted, endSequence_adds hg (ha hs) hc⟩

theorem append_ok (h : (e.append values).value = (.ok (), e')) :
    e'.aborted = e.aborted ∧ Adds e e' values := by
  simp only [append] at h
  split at h
  case isTrue     => cases h
  case isFalse hl =>
    split at h
    case isTrue hd  =>
      simp only [Logged.value_bind] at h
      split at h
      case h_1       => cases h
      case h_2 e₁ hr =>
        have ⟨he, hv⟩ := each_reserve_ok hr
        subst he
        exact store_ok (fun hs => ⟨hs, absurd hd, fun _ => hv⟩) h
    case isFalse hd =>
      exact store_ok (fun hs => ⟨hs, fun _ => by tauto, (absurd · hd)⟩) h

theorem guarded_ok {step : Encoder → Logged (Except Error Unit × Encoder)}
    (h : (e.guarded step).value = (.ok (), e')) :
    e.aborted = false ∧ (step e).value = (.ok (), e') := by
  simp only [guarded] at h
  split at h
  case isTrue     => cases h
  case isFalse ha =>
    simp only [Logged.value_bind] at h
    split at h
    case h_1 e₁ hs => cases h; exact ⟨Bool.not_eq_true _ ▸ ha, hs⟩
    case h_2       => cases h

theorem encode_ok (h : (e.encode values).value = (.ok (), e')) :
    e'.aborted = false ∧ Adds e e' values := by
  have ⟨ha, hs⟩ := guarded_ok h
  have ⟨ha', hd⟩ := append_ok hs
  exact ⟨ha'.trans ha, hd⟩

structure Packs (e e' : Encoder) (sequences : List (List UInt64)) : Prop where
  config        : e'.config = e.config
  admits        : ∀ s ∈ sequences, e.config.Admits s
  sequenceCount : e'.sequenceCount.toNat = e.sequenceCount.toNat + sequences.length
  digits        : e'.writer.digits = e.writer.digits ++ sequences.flatMap e.config.sequence

theorem Packs.refl (e : Encoder) : Packs e e [] :=
  ⟨rfl, nofun, rfl, (List.append_nil _).symm⟩

theorem Packs.trans {sequences sequences' : List (List UInt64)} (h : Packs e e₁ sequences)
    (h' : Packs e₁ e' sequences') : Packs e e' (sequences ++ sequences') where
  config        := h'.config.trans h.config
  admits        := List.forall_mem_append.2 ⟨h.admits, h.config ▸ h'.admits⟩
  sequenceCount := by
    rw [h'.sequenceCount, h.sequenceCount, List.length_append]
    ring
  digits        := by
    rw [h'.digits, h.digits, h.config, List.flatMap_append, List.append_assoc]

theorem Adds.packs (h : Adds e e' values) : Packs e e' [values] where
  config        := h.config
  admits        := List.forall_mem_singleton.2 h.admits
  sequenceCount := h.sequenceCount
  digits        := by rw [h.digits, List.flatMap_singleton]

-- What steps pack that are taken one after the other, if each packs what it should.
theorem each_packs {α : Type} {step : Encoder → α → Logged (Except Error Unit × Encoder)}
    (packed : Config → α → List (List UInt64)) {aborted : Bool}
    (hstep : ∀ {e e' a}, e.aborted = aborted → (step e a).value = (.ok (), e') →
      e'.aborted = aborted ∧ Packs e e' (packed e.config a))
    {as : List α} (ha : e.aborted = aborted)
    (h : (Logged.each step e as).value = (.ok (), e')) :
    e'.aborted = aborted ∧ Packs e e' (as.flatMap (packed e.config)) := by
  induction as generalizing e
  case nil          => cases h; exact ⟨ha, .refl _⟩
  case cons a as hi =>
    simp only [Logged.each_cons, Logged.value_bind] at h
    split at h
    case h_1 e₁ hs =>
      have ⟨ha₁, hp₁⟩ := hstep ha hs
      have ⟨ha', hp⟩ := hi ha₁ h
      rw [hp₁.config] at hp
      exact ⟨ha', hp₁.trans hp⟩
    case h_2       => cases h

theorem each_encode_ok {sequences : List (List UInt64)} (h₀ : e.aborted = false)
    (h : (Logged.each encode e sequences).value = (.ok (), e')) :
    e'.aborted = false ∧ Packs e e' sequences := by
  have hx := each_packs (fun _ values => [values])
    (fun _ hs => (encode_ok hs).imp id Adds.packs) h₀ h
  rwa [List.flatMap_singleton'] at hx

-- A batch is its header, with the count filled in, what was packed, and less than a byte of zeros.
theorem finish_ok {header : Header} (ha : e.aborted = false)
    (hw : e.writer.digits = Bytes.digits header.encode ++ ds) :
    ∃ body, e.finish = .ok ({ header with sequenceCount := e.sequenceCount }.encode ++ body) ∧
      ∃ k < 8, Bytes.digits body = ds ++ List.replicate k false := by
  have hb := e.writer.digits_bytes
  rw [hw, List.append_assoc] at hb
  have ⟨body, hbody, hd⟩ := Bytes.exists_append_of_digits_eq hb
  refine ⟨body, ?_, _, e.writer.freeBits_lt, hd⟩
  rw [finish, ha, hbody, Header.patchCount_encode_append]
  rfl

theorem digits_ofConfig (c : Config) : (ofConfig c).writer.digits =
    Bytes.digits (Header.encode ⟨.ofNat c.bits, c.sequenceLength, 0⟩) := by
  rw [ofConfig, Bits.Writer.digits_ofBytes]

inductive Call
  | sequence (values : List UInt64)
  | bytes (content : Bytes)

namespace Call

def perform (e : Encoder) : Call → Logged (Except Error Unit × Encoder)
  | sequence values => e.encode values
  | bytes content   => e.encodeBytes content

def sequences (c : Config) : Call → List (List UInt64)
  | sequence values => [values]
  | bytes content   =>
    let values := content.map (·.toUInt64)
    if c.Delimited then [values] else pieces c.sequenceLength.toNat values

end Call

theorem encodeBytes_ok {content : Bytes} (h : (e.encodeBytes content).value = (.ok (), e')) :
    e'.aborted = false ∧ Packs e e' ((Call.bytes content).sequences e.config) := by
  have ⟨ha, hs⟩ := guarded_ok h
  rw [Call.sequences]
  split at hs
  case isTrue hd  =>
    have ⟨ha', hadds⟩ := append_ok hs
    rw [if_pos hd]
    exact ⟨ha'.trans ha, hadds.packs⟩
  case isFalse hd =>
    rw [if_neg hd]
    split at hs
    case isTrue  => cases hs
    case isFalse =>
      have hx := each_packs (fun _ values => [values])
        (fun ha hs => (append_ok hs).imp (·.trans ha) Adds.packs) ha hs
      rwa [List.flatMap_singleton'] at hx

theorem perform_ok {call : Call} (h : (call.perform e).value = (.ok (), e')) :
    e'.aborted = false ∧ Packs e e' (call.sequences e.config) := by
  cases call
  case sequence values => exact (encode_ok h).imp id Adds.packs
  case bytes content   => exact encodeBytes_ok h

-- A batch that came of calls which all succeeded.
def Finished (c : Config) (sequences : List (List UInt64)) (bytes : Bytes) : Prop :=
  ∃ calls e, (Logged.each Call.perform (ofConfig c) calls).value = (.ok (), e) ∧
    sequences = calls.flatMap (·.sequences c) ∧ e.finish = .ok bytes

structure Announces (header : Header) (c : Config) (n : Nat) : Prop where
  bits           : header.bits.toNat = c.bits
  sequenceLength : header.sequenceLength = c.sequenceLength
  sequenceCount  : header.sequenceCount.toNat = n

theorem Finished.layout {c : Config} {sequences : List (List UInt64)} {bytes : Bytes}
    (h : Finished c sequences bytes) : (∀ s ∈ sequences, c.Admits s) ∧ ∃ header body,
      bytes = header.encode ++ body ∧ Announces header c sequences.length ∧
        ∃ k < 8, Bytes.digits body = sequences.flatMap c.sequence ++ List.replicate k false := by
  obtain ⟨calls, e, he, rfl, hf⟩ := h
  have ⟨ha, hp⟩ := each_packs (fun c call => call.sequences c)
    (fun _ hs => perform_ok hs) (e := ofConfig c) rfl he
  have hd := hp.digits
  rw [digits_ofConfig] at hd
  have ⟨body, hf', hk⟩ := finish_ok ha hd
  rw [hf] at hf'
  cases hf'
  refine ⟨hp.admits, _, body, rfl, ⟨c.toNat_ofNat_bits, rfl, ?_⟩, hk⟩
  exact hp.sequenceCount.trans (Nat.zero_add _)

end Batch.Encoder
end BitPacking
