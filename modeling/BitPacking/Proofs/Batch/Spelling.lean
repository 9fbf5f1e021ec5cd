import BitPacking.Proofs.Batch.Decoder
import BitPacking.Proofs.Spelling

namespace BitPacking.Batch

namespace Header

variable {header : Header} {bytes : Bytes} {cause : Error}

theorem take_of_decode (h : decode (bytes.take size) = .ok header) :
    bytes.take size = header.encode := by
  rw [encode_of_decode h, List.take_take, Nat.min_self]

theorem decode_error (h : decode bytes = .error cause) (ending : Except IoError Unit)
    (hl : size ≤ bytes.length) : cause.atEnding ending = cause := by
  obtain ⟨header, hb, -⟩ := exists_encode_append hl
  rw [← hb, decode_encode_append, validate] at h
  split at h
  case isTrue  => cases h
  case isFalse => cases h; rfl

end Header

namespace Decoder

variable {d d' : Decoder} {source : Source} {header : Header} {cause : Error} {raw : UInt64}
variable {values : List UInt64} {ds rest : List Bool}

theorem ofSource_of_decode (h : Header.decode (source.supplied.take Header.size) = .ok header)
    (containsZero : Bool) :
    ∃ d s, ofSource source containsZero = (.ok d, s) ∧ d.header = header ∧
      d.containsZero = containsZero ∧ d.remaining = header.sequenceCount.toNat ∧
      d.reader.digits = Bytes.digits (source.supplied.drop Header.size) ∧
      d.reader.ending = source.ending := by
  exact ofSource_ok containsZero (Header.isValidWidth_of_decode h)
    (Header.take_of_decode h ▸ (List.take_append_drop ..).symm)

theorem ofSource_of_decode_error
    (h : Header.decode (source.supplied.take Header.size) = .error cause) (containsZero : Bool) :
    (ofSource source containsZero).1 = .error (cause.atEnding source.ending) := by
  by_cases hl : Header.size ≤ source.supplied.length
  case pos =>
    obtain ⟨r, hr, -⟩ := Bits.Reader.readBytes_of_le (r := .ofSource source) (n := Header.size) hl
    rw [Bits.Reader.bytes_ofSource] at hr
    have he := Header.decode_error h source.ending (by rw [List.length_take, min_eq_left hl])
    simp only [ofSource, hr]
    split
    case h_1 hx => rw [hr, h] at hx; cases hx; rw [he]
    case h_2 hx => rw [hr, h] at hx; cases hx
  case neg =>
    have hl := Nat.lt_of_not_le hl
    rw [List.take_of_length_le hl.le] at h
    cases h.symm.trans (Header.decode_of_lt hl)
    obtain ⟨_, r, hr, hf⟩ := Bits.Reader.readBytes_ofSource_of_lt hl
    rcases hf with ⟨rfl, he⟩ | ⟨e, rfl, he⟩
    · rw [he]
      simp only [ofSource, hr]
      split
      case h_1 hx => rw [hr, h] at hx; cases hx; rfl
      case h_2 hx => rw [hr, h] at hx; cases hx
    · rw [he]
      simp only [ofSource, hr]
      rfl

-- A decoder that has read on and has some digits left.
structure ReadsTo (d d' : Decoder) (rest : List Bool) : Prop where
  header       : d'.header = d.header
  containsZero : d'.containsZero = d.containsZero
  remaining    : d'.remaining = d.remaining
  digits       : d'.reader.digits = rest
  ending       : d'.reader.ending = d.reader.ending

theorem ReadsTo.trans {d₁ : Decoder} {rest₁ : List Bool} (h : d.ReadsTo d₁ rest₁)
    (h' : d₁.ReadsTo d' rest) : d.ReadsTo d' rest where
  header       := h'.header.trans h.header
  containsZero := h'.containsZero.trans h.containsZero
  remaining    := h'.remaining.trans h.remaining
  digits       := h'.digits
  ending       := h'.ending.trans h.ending

theorem readRaw_of_element?
    (h : Bits.element? d.header.bits.toNat d.reader.digits = some (raw, rest)) :
    ∃ d', d.readRaw = (.ok raw, d') ∧ d.ReadsTo d' rest := by
  have ⟨r, hr, hd, he⟩ := Bits.Reader.readBits_of_element? h
  exact ⟨{ d with reader := r }, by rw [readRaw, hr], rfl, rfl, rfl, hd, he⟩

def shortage (d : Decoder) : Error :=
  Error.truncatedInput.atEnding d.reader.ending

theorem ReadsTo.shortage (h : d.ReadsTo d' rest) : d'.shortage = d.shortage := by
  rw [Decoder.shortage, h.ending, Decoder.shortage]

theorem readRaw_of_none (h : Bits.element? d.header.bits.toNat d.reader.digits = none) :
    ∃ d', d.readRaw = (.error d.shortage, d') := by
  have ⟨r, hr⟩ := Bits.Reader.readBits_of_none h
  refine ⟨{ d with reader := r }, ?_⟩
  rw [readRaw, hr, shortage]
  cases d.reader.ending <;> rfl

theorem readRun_of_delimiter (past : List UInt64) (h : d.readRaw = (.ok delimiter, d')) :
    d.readRun past = (.ok past.reverse, d') := by
  rw [readRun]
  split
  case h_1 hx => rw [h] at hx; cases hx; rfl
  case h_2 hx => rw [h] at hx; cases hx

theorem readRun_of_value (past : List UInt64) (h : d.readRaw = (.ok raw, d'))
    (hr : raw ≠ delimiter) : d.readRun past = d'.readRun (unmap d'.containsZero raw :: past) := by
  rw [readRun]
  split
  case h_1 hx => rw [h] at hx; cases hx; rw [if_neg hr]
  case h_2 hx => rw [h] at hx; cases hx

theorem readRun_of_error (past : List UInt64) (h : d.readRaw = (.error cause, d')) :
    d.readRun past = (.error cause, d') := by
  rw [readRun]
  split
  case h_1 hx => rw [h] at hx; cases hx
  case h_2 hx => rw [h] at hx; cases hx; rfl

theorem readRun_of_run (past : List UInt64)
    (h : Spelled.run d.header.bits.toNat d.containsZero d.reader.digits = ⟨values, some rest⟩) :
    ∃ d', d.readRun past = (.ok (past.reverse ++ values), d') ∧ d.ReadsTo d' rest := by
  generalize hw : d.header.bits.toNat = width, hz : d.containsZero = containsZero,
    hd : d.reader.digits = ds at h
  fun_induction Spelled.run width containsZero ds generalizing d past values
  case case1                => cases h
  case case2 hx             =>
    cases h
    obtain ⟨d', hr, hto⟩ := readRaw_of_element? (d := d) (hw ▸ hd ▸ hx)
    exact ⟨d', by rw [readRun_of_delimiter past hr, List.append_nil], hto⟩
  case case3 raw _ hx hn hi =>
    obtain ⟨values, rfl, hvs⟩ := Spelled.cons_eq_some h
    obtain ⟨d₁, hr₁, hto₁⟩ := readRaw_of_element? (d := d) (hw ▸ hd ▸ hx)
    have hz₁ := hto₁.containsZero.trans hz
    have ⟨d', hr, hto⟩ := hi (unmap d₁.containsZero raw :: past) (hto₁.header ▸ hw) hz₁
      hto₁.digits hvs
    refine ⟨d', ?_, hto₁.trans hto⟩
    rw [readRun_of_value past hr₁ hn, hr, hz₁, List.reverse_cons, List.append_assoc,
      List.singleton_append]

theorem readRun_of_none (past : List UInt64)
    (h : (Spelled.run d.header.bits.toNat d.containsZero d.reader.digits).rest = none) :
    ∃ d', d.readRun past = (.error d.shortage, d') := by
  generalize hw : d.header.bits.toNat = width, hz : d.containsZero = containsZero,
    hd : d.reader.digits = ds at h
  fun_induction Spelled.run width containsZero ds generalizing d past
  case case1 hx             =>
    have ⟨d', hr⟩ := readRaw_of_none (d := d) (hw ▸ hd ▸ hx)
    exact ⟨d', readRun_of_error past hr⟩
  case case2                => cases h
  case case3 raw _ hx hn hi =>
    obtain ⟨d₁, hr₁, hto₁⟩ := readRaw_of_element? (d := d) (hw ▸ hd ▸ hx)
    have ⟨d', hr⟩ := hi (unmap d₁.containsZero raw :: past) (hto₁.header ▸ hw)
      (hto₁.containsZero.trans hz) hto₁.digits h
    exact ⟨d', by rw [readRun_of_value past hr₁ hn, hr, hto₁.shortage]⟩

theorem readRow_of_times (n : Nat) (past : List UInt64)
    (h : Spelled.times (Spelled.value? d.header.bits.toNat d.containsZero) n d.reader.digits =
      ⟨values, some rest⟩) :
    ∃ d', d.readRow n past = (.ok (past.reverse ++ values), d') ∧ d.ReadsTo d' rest := by
  induction n generalizing d past values
  case zero      =>
    cases h
    exact ⟨d, by rw [readRow, List.append_nil], rfl, rfl, rfl, rfl, rfl⟩
  case succ n hi =>
    rw [Spelled.times] at h
    split at h
    case h_1         => cases h
    case h_2 v _ hv  =>
      obtain ⟨values, rfl, hvs⟩ := Spelled.cons_eq_some h
      obtain ⟨raw, hx, rfl⟩ := Spelled.value?_eq_some hv
      obtain ⟨d₁, hr₁, hto₁⟩ := readRaw_of_element? hx
      rw [← hto₁.digits, ← hto₁.header, ← hto₁.containsZero] at hvs
      obtain ⟨d', hr, hto⟩ := hi (unmap d₁.containsZero raw :: past) hvs
      refine ⟨d', ?_, hto₁.trans hto⟩
      simp only [readRow, hr₁, hr]
      rw [hto₁.containsZero, List.reverse_cons, List.append_assoc, List.singleton_append]

theorem readRow_of_none (n : Nat) (past : List UInt64)
    (h : (Spelled.times (Spelled.value? d.header.bits.toNat d.containsZero) n
      d.reader.digits).rest = none) :
    ∃ d', d.readRow n past = (.error d.shortage, d') := by
  induction n generalizing d past
  case zero      => cases h
  case succ n hi =>
    rw [Spelled.times] at h
    split at h
    case h_1 hv     =>
      obtain ⟨d', hr⟩ := readRaw_of_none (Spelled.value?_eq_none hv)
      exact ⟨d', by simp only [readRow, hr]⟩
    case h_2 v _ hv =>
      obtain ⟨raw, hx, rfl⟩ := Spelled.value?_eq_some hv
      obtain ⟨d₁, hr₁, hto₁⟩ := readRaw_of_element? hx
      rw [Spelled.cons, ← hto₁.digits, ← hto₁.header, ← hto₁.containsZero] at h
      obtain ⟨d', hr⟩ := hi (unmap d₁.containsZero raw :: past) h
      exact ⟨d', by simp only [readRow, hr₁, hr, hto₁.shortage]⟩

theorem readSequence_of_sequence?
    (h : Spelled.sequence? d.header d.containsZero d.reader.digits = some (values, rest)) :
    ∃ d', d.readSequence = (.ok values, d') ∧ d.ReadsTo d' rest := by
  rw [Spelled.sequence?] at h
  rw [readSequence]
  split at h
  case isTrue hd  =>
    rw [if_pos hd]
    exact readRun_of_run [] (Spelled.whole?_eq_some h)
  case isFalse hd =>
    rw [if_neg hd]
    exact readRow_of_times _ [] (Spelled.whole?_eq_some h)

theorem readSequence_of_none
    (h : Spelled.sequence? d.header d.containsZero d.reader.digits = none) :
    ∃ d', d.readSequence = (.error d.shortage, d') := by
  rw [Spelled.sequence?] at h
  rw [readSequence]
  split at h
  case isTrue hd  =>
    rw [if_pos hd]
    exact readRun_of_none [] (Spelled.whole?_eq_none h)
  case isFalse hd =>
    rw [if_neg hd]
    exact readRow_of_none _ [] (Spelled.whole?_eq_none h)

theorem next_of_eq_zero (h : d.remaining = 0) : d.next = (.ok none, d) :=
  if_pos h

theorem next_of_sequence? (hn : d.remaining ≠ 0)
    (h : Spelled.sequence? d.header d.containsZero d.reader.digits = some (values, rest)) :
    ∃ d₁, d.next = (.ok (some values), { d₁ with remaining := d.remaining - 1 }) ∧
      d.ReadsTo d₁ rest := by
  have ⟨d₁, hr, hto⟩ := readSequence_of_sequence? h
  refine ⟨d₁, ?_, hto⟩
  rw [next, if_neg hn, hr]
  simp only [hto.remaining]

theorem next_of_none (hn : d.remaining ≠ 0)
    (h : Spelled.sequence? d.header d.containsZero d.reader.digits = none) :
    ∃ d', d.next = (.error d.shortage, d') := by
  have ⟨d', hr⟩ := readSequence_of_none h
  exact ⟨d', by rw [next, if_neg hn, hr]⟩

def spelled (d : Decoder) : Spelled (List UInt64) :=
  .times (Spelled.sequence? d.header d.containsZero) d.remaining d.reader.digits

theorem spelled_of_eq_zero (h : d.remaining = 0) : d.spelled = ⟨[], some d.reader.digits⟩ := by
  rw [spelled, h]
  rfl

theorem spelled_of_sequence? {d₁ : Decoder} (hn : d.remaining ≠ 0)
    (h : Spelled.sequence? d.header d.containsZero d.reader.digits = some (values, rest))
    (hto : d.ReadsTo d₁ rest) :
    d.spelled = ({ d₁ with remaining := d.remaining - 1 } : Decoder).spelled.cons values := by
  obtain ⟨n, hn⟩ := Nat.exists_eq_succ_of_ne_zero hn
  simp only [spelled, hn, Spelled.times, h, hto.header, hto.containsZero, hto.digits,
    Nat.succ_sub_one]

theorem spelled_of_none (hn : d.remaining ≠ 0)
    (h : Spelled.sequence? d.header d.containsZero d.reader.digits = none) :
    d.spelled = ⟨[], none⟩ := by
  obtain ⟨n, hn⟩ := Nat.exists_eq_succ_of_ne_zero hn
  simp only [spelled, hn, Spelled.times, h]

theorem readAll_of_some (past : List (List UInt64)) (h : d.next = (.ok (some values), d')) :
    d.readAll past = d'.readAll (values :: past) := by
  rw [readAll]
  split
  case h_1 hx => rw [h] at hx; cases hx; rfl
  case h_2 hx => rw [h] at hx; cases hx
  case h_3 hx => rw [h] at hx; cases hx

theorem readAll_of_end (past : List (List UInt64)) (h : d.next = (.ok none, d')) :
    d.readAll past = (.ok past.reverse, d') := by
  rw [readAll]
  split
  case h_1 hx => rw [h] at hx; cases hx
  case h_2 hx => rw [h] at hx; cases hx; rfl
  case h_3 hx => rw [h] at hx; cases hx

theorem readAll_of_error (past : List (List UInt64)) (h : d.next = (.error cause, d')) :
    d.readAll past = (.error cause, d') := by
  rw [readAll]
  split
  case h_1 hx => rw [h] at hx; cases hx
  case h_2 hx => rw [h] at hx; cases hx
  case h_3 hx => rw [h] at hx; cases hx; rfl

theorem readAll_of_spelled {sequences : List (List UInt64)} (past : List (List UInt64))
    (h : d.spelled = ⟨sequences, some rest⟩) :
    ∃ d', d.readAll past = (.ok (past.reverse ++ sequences), d') ∧ d'.reader.digits = rest := by
  induction hn : d.remaining generalizing d past sequences
  case zero      =>
    rw [spelled_of_eq_zero hn] at h
    cases h
    exact ⟨d, by rw [readAll_of_end past (next_of_eq_zero hn), List.append_nil], rfl⟩
  case succ n hi =>
    have hnz : d.remaining ≠ 0 := by omega
    match hs : Spelled.sequence? d.header d.containsZero d.reader.digits with
    | none                =>
      rw [spelled_of_none hnz hs] at h
      cases h
    | some (values, rest) =>
      obtain ⟨d₁, hnext, hto⟩ := next_of_sequence? hnz hs
      rw [spelled_of_sequence? hnz hs hto] at h
      obtain ⟨sequences, rfl, hss⟩ := Spelled.cons_eq_some h
      obtain ⟨d', hr, hd'⟩ := hi (values :: past) hss (by simp only [hn, Nat.succ_sub_one])
      refine ⟨d', ?_, hd'⟩
      rw [readAll_of_some past hnext, hr, List.reverse_cons, List.append_assoc,
        List.singleton_append]

theorem readAll_of_none (past : List (List UInt64)) (h : d.spelled.rest = none) :
    (d.readAll past).1 = .error d.shortage := by
  induction hn : d.remaining generalizing d past
  case zero      =>
    rw [spelled_of_eq_zero hn] at h
    cases h
  case succ n hi =>
    have hnz : d.remaining ≠ 0 := by omega
    match hs : Spelled.sequence? d.header d.containsZero d.reader.digits with
    | none                =>
      obtain ⟨d', hnext⟩ := next_of_none hnz hs
      rw [readAll_of_error past hnext]
    | some (values, rest) =>
      obtain ⟨d₁, hnext, hto⟩ := next_of_sequence? hnz hs
      rw [spelled_of_sequence? hnz hs hto] at h
      rw [readAll_of_some past hnext, hi _ h (by simp only [hn, Nat.succ_sub_one])]
      exact congrArg _ hto.shortage

end Decoder

-- What calls of `next` come to, up to the first that gives no sequence: the sequences before it,
-- and the error that it gives.
structure Delivered where
  sequences : List (List UInt64)
  failure   : Option Error
deriving DecidableEq

namespace Decoder

def deliver (d : Decoder) : Delivered :=
  match _h : d.next with
  | (.ok (some values), d) =>
    let delivered := deliver d
    { delivered with sequences := values :: delivered.sequences }
  | (.ok none, _) => ⟨[], none⟩
  | (.error e, _) => ⟨[], some e⟩
termination_by d.remaining
decreasing_by have := remaining_next ‹_›; omega

theorem deliver_eq (d : Decoder) :
    d.deliver = ⟨d.spelled.values, d.spelled.failure d.shortage⟩ := by
  -- Each call of `next` that gives a sequence leaves one less, and the digits behind it.
  induction hn : d.remaining generalizing d
  case zero      =>
    have hnext := next_of_eq_zero hn
    rw [spelled_of_eq_zero hn, deliver]
    split
    case h_1 hx => rw [hnext] at hx; cases hx
    case h_2    => rfl
    case h_3 hx => rw [hnext] at hx; cases hx
  case succ n hi =>
    have hnz : d.remaining ≠ 0 := by omega
    rw [deliver]
    match hs : Spelled.sequence? d.header d.containsZero d.reader.digits with
    | none                =>
      obtain ⟨d', hnext⟩ := next_of_none hnz hs
      rw [spelled_of_none hnz hs]
      split
      case h_1 hx => rw [hnext] at hx; cases hx
      case h_2 hx => rw [hnext] at hx; cases hx
      case h_3 hx => rw [hnext] at hx; cases hx; rfl
    | some (values, rest) =>
      obtain ⟨d₁, hnext, hto⟩ := next_of_sequence? hnz hs
      rw [spelled_of_sequence? hnz hs hto, Spelled.values_cons, Spelled.failure_cons,
        ← hto.shortage]
      split
      case h_1 hx =>
        rw [hnext] at hx
        cases hx
        rw [hi _ (by simp only [hn, Nat.succ_sub_one])]
        rfl
      case h_2 hx => rw [hnext] at hx; cases hx
      case h_3 hx => rw [hnext] at hx; cases hx

def spell (bytes : Bytes) (ending : Except IoError Unit) (containsZero : Bool) :
    Except Error (Header × Delivered) :=
  match Header.decode (bytes.take Header.size) with
  | .error e   => .error (e.atEnding ending)
  | .ok header =>
    let spelled := Spelled.times (Spelled.sequence? header containsZero)
      header.sequenceCount.toNat (Bytes.digits (bytes.drop Header.size))
    .ok (header, ⟨spelled.values, spelled.failure (Error.truncatedInput.atEnding ending)⟩)

theorem map_deliver_ofSource (source : Source) (containsZero : Bool) :
    (ofSource source containsZero).1.map (fun d => (d.header, d.deliver)) =
      spell source.supplied source.ending containsZero := by
  rw [spell]
  split
  case h_1 e h      => rw [ofSource_of_decode_error h]; rfl
  case h_2 header h =>
    have ⟨d, s, hs, hh, hz, hn, hd, he⟩ := ofSource_of_decode h containsZero
    rw [hs, ← hn, ← hh, ← hz, ← hd, ← he]
    exact congrArg (fun x => Except.ok (d.header, x)) d.deliver_eq

end Decoder

end BitPacking.Batch
