import BitPacking.Proofs.Batch.Encoder
import BitPacking.Proofs.Rows

namespace BitPacking

-- The bytes that digits make up, the last one filled up with zeros.
def Bytes.ofDigits (ds : List Bool) : Bytes :=
  let length := (ds.length + 7) / 8
  bigEndian length (Bits.number ds * 2 ^ (8 * length - ds.length))

namespace Batch.Encoder

namespace Call

def values : Call → List UInt64
  | sequence values => values
  | bytes content   => content.map (·.toUInt64)

def count (c : Config) : Call → Nat
  | sequence _    => 1
  | bytes content => if c.Delimited then 1 else content.length / c.sequenceLength.toNat

end Call

def numberOfSequences (c : Config) (calls : List Call) : Nat :=
  (calls.map (·.count c)).sum

-- The number of elements: each value is one, and where there are delimiters, each of them.
def numberOfElements (c : Config) (calls : List Call) : Nat :=
  (calls.flatMap (·.values)).length + if c.Delimited then numberOfSequences c calls else 0

def body (c : Config) (calls : List Call) : List Bool :=
  calls.flatMap fun call => c.sequence call.values

def layout (c : Config) (calls : List Call) : Bytes :=
  .ofNat c.bits :: Bytes.bigEndian 4 c.sequenceLength.toNat ++
    Bytes.bigEndian 4 (numberOfSequences c calls) ++ Bytes.ofDigits (body c calls)

-- The length of a layout: the header, and as many bytes as the elements need.
def layoutLength (c : Config) (calls : List Call) : Nat :=
  Header.size + (c.bits * numberOfElements c calls + 7) / 8

end Batch.Encoder

theorem Bytes.eq_ofDigits {bytes : Bytes} {ds : List Bool} {k : Nat}
    (h : digits bytes = ds ++ List.replicate k false) (hk : k < 8) : bytes = ofDigits ds := by
  have hl := congrArg List.length h
  rw [length_digits, List.length_append, List.length_replicate] at hl
  have hn : Bits.number (List.replicate k false) = 0 := by
    rw [← Bits.digits_eq_replicate, Bits.number_digits, Nat.zero_mod]
  have hb : (ds.length + 7) / 8 = bytes.length := by omega
  have hz : 8 * bytes.length - ds.length = k := by omega
  rw [ofDigits, hb, hz, ← bigEndian_ofBigEndian bytes, ← number_digits, h, Bits.number_append, hn,
    List.length_replicate, Nat.add_zero, length_bigEndian]

namespace Batch.Encoder

variable {c : Config} {e e' e₁ : Encoder} {call : Call} {calls calls' : List Call}

theorem pieces_eq_rows (n : Nat) (values : List UInt64) : pieces n values = rows n values := by
  fun_induction pieces n values
  case case1 h    =>
    rcases h with rfl | h
    case inl => simp [rows]
    case inr =>
      rw [List.length_take] at h
      exact (rows_of_lt (by omega)).symm
  case case2 h hi =>
    rw [List.length_take] at h
    rw [rows_of_le (by omega) (by omega), hi]

-- Where nothing stands between sequences, it does not matter where they are cut.
theorem flatMap_sequence (hd : ¬c.Delimited) (sequences : List (List UInt64)) :
    sequences.flatMap c.sequence = c.sequence sequences.flatten := by
  have hs (values : List UInt64) : c.sequence values = values.flatMap c.element := by
    rw [Config.sequence, if_neg hd, List.append_nil]
  induction sequences
  case nil          => exact (hs []).symm
  case cons s ss hi =>
    rw [List.flatMap_cons, hi, List.flatten_cons, hs, hs, hs, List.flatMap_append]

structure Lays (e e' : Encoder) (calls : List Call) : Prop where
  config        : e'.config = e.config
  holds         : ∀ call ∈ calls, ∀ v ∈ call.values, e.config.Holds v
  sequenceCount : e'.sequenceCount.toNat = e.sequenceCount.toNat + numberOfSequences e.config calls
  digits        : e'.writer.digits = e.writer.digits ++ body e.config calls

theorem Lays.refl (e : Encoder) : Lays e e [] :=
  ⟨rfl, List.forall_mem_nil _, rfl, (List.append_nil _).symm⟩

theorem Lays.cons (h : Lays e e₁ [call]) (h' : Lays e₁ e' calls) : Lays e e' (call :: calls) where
  config        := h'.config.trans h.config
  holds         :=
    List.forall_mem_cons.2 ⟨h.holds call (List.mem_singleton_self call), h.config ▸ h'.holds⟩
  sequenceCount := by
    rw [h'.sequenceCount, h.sequenceCount, h.config]
    simp only [numberOfSequences, List.map_cons, List.sum_cons, List.map_nil, List.sum_nil]
    ring
  digits        := by
    rw [h'.digits, h.digits, h.config]
    simp only [body, List.flatMap_cons, List.flatMap_nil, List.append_nil, List.append_assoc]

theorem Packs.lays {sequences : List (List UInt64)} (h : Packs e e' sequences)
    (hv : ∀ v ∈ call.values, v ∈ sequences.flatten)
    (hn : sequences.length = call.count e.config)
    (hd : sequences.flatMap e.config.sequence = e.config.sequence call.values) :
    Lays e e' [call] where
  config        := h.config
  holds         := by
    refine List.forall_mem_singleton.2 fun v hx => ?_
    obtain ⟨s, hs, hm⟩ := List.mem_flatten.1 (hv v hx)
    exact (h.admits s hs).holds v hm
  sequenceCount := by
    rw [h.sequenceCount, hn, numberOfSequences, List.map_singleton, List.sum_singleton]
  digits        := by
    rw [h.digits, hd, body, List.flatMap_singleton]

theorem encodeBytes_dvd {content : Bytes} (h : (e.encodeBytes content).value = (.ok (), e'))
    (hd : ¬e.config.Delimited) : e.config.sequenceLength.toNat ∣ content.length := by
  obtain ⟨-, hs⟩ := guarded_ok h
  rw [if_neg hd] at hs
  split at hs
  case isTrue     => cases hs
  case isFalse hm => exact Nat.dvd_of_mod_eq_zero (not_not.1 hm)

theorem perform_lays (h : (call.perform e).value = (.ok (), e')) : Lays e e' [call] := by
  obtain ⟨-, hp⟩ := perform_ok h
  cases call
  case sequence values =>
    refine hp.lays (fun v hv => ?_) rfl (List.flatMap_singleton ..)
    rwa [Call.sequences, List.flatten_singleton]
  case bytes content   =>
    rw [Call.sequences] at hp
    split at hp
    case isTrue hd  =>
      refine hp.lays (fun v hv => ?_) (if_pos hd).symm (List.flatMap_singleton ..)
      rwa [List.flatten_singleton]
    case isFalse hd =>
      have hdvd := encodeBytes_dvd h hd
      rw [pieces_eq_rows] at hp
      have hf : (rows e.config.sequenceLength.toNat (content.map (·.toUInt64))).flatten =
          content.map (·.toUInt64) := flatten_rows_of_dvd (by rwa [List.length_map])
      refine hp.lays (fun v hv => by rwa [hf]) ?_ ?_
      · rw [length_rows, List.length_map, Call.count, if_neg hd]
      · rw [flatMap_sequence hd, hf]
        rfl

-- After each call of a run that nothing stopped, the encoder has appended the calls so far.
theorem each_perform_lays (h : (Logged.each Call.perform e calls).value = (.ok (), e')) :
    ∀ front, front <+: calls →
      ∃ e₁, (Logged.each Call.perform e front).value = (.ok (), e₁) ∧ Lays e e₁ front := by
  induction calls generalizing e
  case nil                =>
    intro front hf
    obtain rfl := List.prefix_nil.1 hf
    exact ⟨e, rfl, .refl e⟩
  case cons call calls hi =>
    simp only [Logged.each_cons, Logged.value_bind] at h
    split at h
    case h_2       => cases h
    case h_1 e₁ hs =>
      intro front hf
      rcases front with _ | ⟨call', front⟩
      case nil  => exact ⟨e, rfl, .refl e⟩
      case cons =>
        obtain ⟨rfl, hp⟩ := List.cons_prefix_cons.1 hf
        obtain ⟨e₂, he, hl⟩ := hi h front hp
        refine ⟨e₂, ?_, (perform_lays hs).cons hl⟩
        simp only [Logged.each_cons, Logged.value_bind, hs, he]

theorem length_body (c : Config) (calls : List Call) :
    (body c calls).length = c.bits * numberOfElements c calls := by
  have hs (values : List UInt64) : (c.sequence values).length =
      c.bits * (values.length + if c.Delimited then 1 else 0) := by
    rw [Config.sequence, List.length_append, c.length_elements, Nat.mul_add, Nat.mul_comm c.bits]
    congr 1
    split
    case isTrue  => rw [c.length_endMark, Nat.mul_one]
    case isFalse => rfl
  induction calls
  case nil                =>
    simp [body, numberOfElements, numberOfSequences]
  case cons call calls hi =>
    have hc : c.Delimited → call.count c = 1 := by
      intro hd
      cases call
      case sequence => rfl
      case bytes    => exact if_pos hd
    rw [body, List.flatMap_cons, List.length_append, ← body, hi, hs, ← Nat.mul_add]
    congr 1
    simp only [numberOfElements, numberOfSequences, List.flatMap_cons, List.length_append,
      List.map_cons, List.sum_cons]
    split
    case isTrue hd => rw [hc hd]; ring
    case isFalse   => ring

theorem length_layout (c : Config) (calls : List Call) :
    (layout c calls).length = layoutLength c calls := by
  simp only [layout, Bytes.ofDigits, List.length_append, List.length_cons, Bytes.length_bigEndian,
    length_body, layoutLength, Header.size]

theorem Lays.encodedLength (h : Lays (ofConfig c) e calls) :
    e.encodedLength = layoutLength c calls := by
  have hb := congrArg List.length e.writer.digits_bytes
  have hf := e.writer.freeBits_lt
  rw [h.digits, digits_ofConfig] at hb
  simp only [List.length_append, Bytes.length_digits, List.length_replicate, Header.length_encode,
    Bits.Writer.length_bytes, ofConfig, length_body] at hb
  rw [Encoder.encodedLength, layoutLength]
  omega

theorem Lays.finish (h : Lays (ofConfig c) e calls) (ha : e.aborted = false) :
    e.finish = .ok (layout c calls) := by
  have hd := h.digits
  rw [digits_ofConfig] at hd
  obtain ⟨bytes, hf, k, hk, hb⟩ := finish_ok ha hd
  have hn : e.sequenceCount.toNat = numberOfSequences c calls :=
    h.sequenceCount.trans (Nat.zero_add _)
  rw [hf, Bytes.eq_ofDigits hb hk, Header.encode, hn]
  rfl

-- The batch is the layout of all calls, and was that of the calls so far after each of them.
theorem finish_eq_layout (h : (Logged.each Call.perform (ofConfig c) calls).value = (.ok (), e)) :
    e.finish = .ok (layout c calls) ∧ (layout c calls).length = layoutLength c calls ∧
      numberOfSequences c calls < UInt32.size ∧
      (∀ call ∈ calls, ∀ v ∈ call.values, c.Holds v) ∧
      ∀ front, front <+: calls → ∃ e₁,
        (Logged.each Call.perform (ofConfig c) front).value = (.ok (), e₁) ∧
          e₁.encodedLength = layoutLength c front := by
  have hfront := each_perform_lays h
  obtain ⟨_, he, hl⟩ := hfront calls List.prefix_rfl
  cases h.symm.trans he
  obtain ⟨ha, -⟩ := each_packs (fun c call => call.sequences c) (fun _ hs => perform_ok hs) rfl h
  refine ⟨hl.finish ha, length_layout c calls, ?_, hl.holds, fun front hf => ?_⟩
  · rw [← Nat.zero_add (numberOfSequences c calls)]
    exact hl.sequenceCount ▸ e.sequenceCount.toNat_lt
  · obtain ⟨e₁, he₁, hl₁⟩ := hfront front hf
    exact ⟨e₁, he₁, hl₁.encodedLength⟩

-- A sequence and two more that are cut out of bytes, their elements three bits wide.
theorem finish_eq_layout_rows :
    ∃ c e, (Config.batch 5 2 true).value = .ok c ∧
      (Logged.each Call.perform (ofConfig c) [.sequence [5, 0], .bytes [1, 2, 3, 4]]).value =
        (.ok (), e) ∧
      e.finish = .ok [3, 0, 0, 0, 2, 0, 0, 0, 3, 0xC5, 0x39, 0x40] ∧
      ∃ e₁, (Logged.each Call.perform (ofConfig c) [.sequence [5, 0]]).value = (.ok (), e₁) ∧
        e₁.encodedLength = 10 := by
  have hc : (Config.batch 5 2 true).value = .ok ⟨5, 2, true, by decide⟩ := by rfl
  have he : (Logged.each Call.perform (ofConfig ⟨5, 2, true, by decide⟩)
      [.sequence [5, 0], .bytes [1, 2, 3, 4]]).value.1 = .ok () := by decide +kernel
  obtain ⟨hf, -, -, -, hl⟩ := finish_eq_layout (Prod.ext he rfl)
  obtain ⟨e₁, he₁, hl₁⟩ := hl [.sequence [5, 0]] ⟨[.bytes [1, 2, 3, 4]], rfl⟩
  have hb : layout ⟨5, 2, true, by decide⟩ [.sequence [5, 0], .bytes [1, 2, 3, 4]] =
      [3, 0, 0, 0, 2, 0, 0, 0, 3, 0xC5, 0x39, 0x40] := by decide +kernel
  exact ⟨_, _, hc, Prod.ext he rfl, hb ▸ hf, e₁, he₁, hl₁.trans (by decide +kernel)⟩

end Batch.Encoder
end BitPacking
