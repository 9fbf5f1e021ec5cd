import BitPacking.Proofs.Batch.Reading
import BitPacking.Proofs.Bits.Demand
import BitPacking.Proofs.Stream.Spelling

namespace BitPacking

open Source (Draws Sparing)
open Source.Answer (received pieces received_append)

theorem map_reverse_cons {α : Type} (past : List α) (a : α) (as? : Option (List α)) :
    as?.map ((a :: past).reverse ++ ·) = (as?.map (a :: ·)).map (past.reverse ++ ·) := by
  cases as?
  case none => rfl
  case some => simp

namespace Stream.Decoder

theorem exists_takes_readOn (d : Decoder) (past : List UInt64) (k : Nat) :
    ∃ as r' values?, (d.readOn past k).source = r'.source ∧
      d.reader.Takes (fun ds => (Spelled.run d.header.bits.toNat d.containsZero ds).whole?) values?
        as r' ∧
      (d.readOn past k).decoded.toList.toOption = values?.map (past.reverse ++ ·) := by
  fun_induction readOn d past k
  case case1 d past k r h         =>
    obtain ⟨as, has, -⟩ := d.reader.exists_takes_readBits d.header.bits.toNat
    rw [h] at has
    refine ⟨as, r, some [], rfl, has.map (fun _ => Spelled.run_of_none)
      fun _ _ => Spelled.run_of_delimiter, ?_⟩
    rw [Option.map_some, List.append_nil]
    rfl
  case case2 d past k raw r h hr hi =>
    obtain ⟨as, has, -⟩ := d.reader.exists_takes_readBits d.header.bits.toNat
    rw [h] at has
    obtain ⟨bs, r', values?, hs, hbs, hv⟩ := hi
    refine ⟨as ++ bs, r', values?.map (unmap d.containsZero raw :: ·), hs, ?_, ?_⟩
    · exact has.append hbs (fun _ => Spelled.run_of_none)
        fun _ _ hx => Spelled.run_of_value hx hr
    · rw [hv, map_reverse_cons]
  case case3 d past k outcome r hn h  =>
    obtain ⟨as, has, -⟩ := d.reader.exists_takes_readBits d.header.bits.toNat
    rw [h] at has
    refine ⟨as, r, none, rfl, has.of_part fun _ => Spelled.run_of_none, ?_⟩
    rcases outcome with e | _ | raw
    case ok.some => exact (hn raw rfl).elim
    all_goals rfl

variable {source : Source} {containsZero : Bool} {d : Decoder}

theorem opened_of_ofSource (h : (ofSource source containsZero).1 = .ok d) :
    let x := (Bits.Reader.ofSource source).readBytes Header.size
    d.reader = x.2 ∧ d.containsZero = containsZero ∧ Header.decode x.1.1 = .ok d.header := by
  simp only [ofSource] at h
  split at h
  case h_1 => cases h
  case h_2 =>
    split at h
    case h_1    => cases h
    case h_2 hx => cases h; exact ⟨rfl, rfl, hx⟩

-- What is received for the header is enough for it, and it is the same header for what else there
-- is to come.
theorem exists_sparing_ofSource (source : Source) (containsZero : Bool) :
    ∃ as, Sparing Bytes.blockSize source (fun bytes => bytes.length < Header.size) as
        (ofSource source containsZero).2 ∧
      ∀ d, (ofSource source containsZero).1 = .ok d →
        (ofSource source containsZero).2 = d.reader.source ∧
        d.reader.blockSize = Bytes.blockSize ∧
        ∀ more, ∃ d' s, ofSource (.ofBytes (received as ++ more)) containsZero = (.ok d', s) ∧
          d'.header = d.header ∧ d'.containsZero = d.containsZero ∧
          d'.reader.digits = (d.reader.withOnly more).digits ∧ d'.reader.ending = .ok () := by
  rcases hr : (Bits.Reader.ofSource source).readBytes Header.size with ⟨⟨bytes, failure⟩, r⟩
  obtain ⟨as, has, hz, hb, hds⟩ := Bits.Reader.exists_asks_front hr
  have hs : (ofSource source containsZero).2 = r.source := by rw [ofSource, hr]
  refine ⟨as, hs ▸ has, fun d h => ?_⟩
  obtain ⟨hr', hc, hd⟩ := opened_of_ofSource h
  rw [hr] at hr' hd
  replace hd : Header.decode ((received as).take Header.size) = .ok d.header := hb ▸ hd
  have hl : Header.size ≤ (received as).length := by
    by_contra hl
    rw [List.length_eq_zero_iff.1 (Nat.lt_one_iff.1 (Nat.lt_of_not_le hl))] at hd
    cases hd
  refine ⟨hs.trans (congrArg _ hr'.symm), hr' ▸ hz, fun more => ?_⟩
  rw [hr', hds hl more, hc]
  have hm : (Source.ofBytes (received as ++ more)).supplied = received as ++ more :=
    Source.supplied_ofBytes _
  have hd' : Header.decode ((received as ++ more).take Header.size) = .ok d.header := by
    rw [List.take_append_of_le_length hl, hd]
  rw [← hm] at hd'
  obtain ⟨d', s, hs', hh, hc', hds', he⟩ := ofSource_of_decode hd' containsZero
  exact ⟨d', s, hs', hh, hc', hm ▸ hds', he.trans (Source.ending_ofBytes _)⟩

theorem decode_of_whole?_eq_none (he : d.reader.ending = .ok ()) (h : d.spelled.whole? = none) :
    d.decode.1.failure = some .missingEndMarker := by
  rw [decode_eq, Spelled.failure, Spelled.whole?_eq_none h, shortage, he]
  rfl

theorem decode_of_whole?_eq_some {values : List UInt64} {rest : List Bool}
    (h : d.spelled.whole? = some (values, rest)) : d.decode.1 = ⟨values, none⟩ := by
  rw [decode_eq, Spelled.whole?_eq_some h]
  rfl

end Stream.Decoder

namespace Stream

-- The bytes of a stream are read up to its end, and until then they do not make a stream.
theorem exists_sparing_decode (source : Source) (containsZero : Bool) :
    ∃ as, Sparing Bytes.blockSize source
        (fun bytes => (decode (.ofBytes bytes) containsZero).1.failure =
          some (if bytes = [] then .truncatedInput else .missingEndMarker))
        as (decode source containsZero).2 ∧
      ((decode source containsZero).1.failure = none → ∀ more,
        (decode (.ofBytes (received as ++ more)) containsZero).1 =
          (decode source containsZero).1) := by
  obtain ⟨as, has, hok⟩ := Decoder.exists_sparing_ofSource source containsZero
  have hhead (bytes : Bytes) (h : bytes.length < Header.size) :
      (decode (.ofBytes bytes) containsZero).1.failure =
        some (if bytes = [] then .truncatedInput else .missingEndMarker) := by
    cases List.length_eq_zero_iff.1 (Nat.lt_one_iff.1 h)
    rw [decode_nil (Source.supplied_ofBytes _) (Source.ending_ofBytes _)]
    rfl
  rcases hd : Decoder.ofSource source containsZero with ⟨e | d, s⟩
  case error =>
    rw [hd] at has
    refine ⟨as, ?_, ?_⟩
    · simp only [decode, hd]
      exact has.imp hhead
    · intro hf
      simp only [decode, hd] at hf
      cases hf
  case ok    =>
    rw [hd] at has hok
    obtain ⟨rfl, hz, hsame⟩ := hok d rfl
    obtain ⟨bs, r, values?, hr, hbs, hv⟩ := d.exists_takes_readOn [] 0
    have hdec : decode source containsZero = d.decode := by rw [decode, hd]
    -- Whatever comes behind the header, there is a decoder for it that starts with those digits.
    have hmore (more : Bytes) : ∃ d' : Decoder,
        decode (.ofBytes (received as ++ more)) containsZero = d'.decode ∧
          d'.spelled = .run d.header.bits.toNat d.containsZero (d.reader.withOnly more).digits ∧
          d'.reader.ending = .ok () ∧ received as ++ more ≠ [] := by
      obtain ⟨d', s, hs, hh, hc, hds, he⟩ := hsame more
      refine ⟨d', by rw [decode, hs], by rw [Decoder.spelled, hh, hc, hds], he, fun hn => ?_⟩
      obtain ⟨_, hx⟩ := Decoder.ofSource_nil (Source.supplied_ofBytes []) (Source.ending_ofBytes _)
        containsZero
      rw [hn, hx] at hs
      cases hs
    rw [hdec, Decoder.decode]
    refine ⟨as ++ bs, (has.imp hhead).append (hr ▸ hz ▸ hbs.asks.sparing.imp fun bytes hs => ?_),
      fun hf more => ?_⟩
    · obtain ⟨d', hd', hsp, he, hne⟩ := hmore bytes
      rw [hd', if_neg hne, Decoder.decode_of_whole?_eq_none he (hsp ▸ hs)]
    · obtain ⟨d', hd', hsp, -⟩ := hmore (received bs ++ more)
      have hx : (d.readOn [] 0).decoded = ⟨d.spelled.values, d.spelled.failure d.shortage⟩ :=
        d.decode_eq
      rw [hx] at hf hv ⊢
      replace hf : d.spelled.failure d.shortage = none := hf
      rw [hf] at hv ⊢
      obtain ⟨values, rfl, hvs⟩ := Option.map_eq_some_iff.1 hv.symm
      replace hvs : values = d.spelled.values := hvs
      rw [received_append, List.append_assoc, hd', ← hvs]
      exact Decoder.decode_of_whole?_eq_some (hsp ▸ hbs.whole _ rfl more)

end Stream

namespace Batch.Decoder

variable {d d₁ d' : Decoder} {sequences : List (List UInt64)}

theorem exists_takes_readRaw (d : Decoder) : ∃ as r', d.readRaw.2 = { d with reader := r' } ∧
    d.reader.Takes (Bits.element? d.header.bits.toNat) d.readRaw.1.toOption as r' := by
  obtain ⟨as, has, -⟩ := d.reader.exists_takes_readBits d.header.bits.toNat
  rcases hr : d.reader.readBits d.header.bits.toNat with ⟨e | _ | raw, r'⟩
  all_goals
    rw [hr] at has
    rw [readRaw, hr]
    exact ⟨as, r', rfl, has⟩

theorem exists_takes_readRun (d : Decoder) (past : List UInt64) :
    ∃ as r' values?, (d.readRun past).2 = { d with reader := r' } ∧
      d.reader.Takes (fun ds => (Spelled.run d.header.bits.toNat d.containsZero ds).whole?) values?
        as r' ∧
      (d.readRun past).1.toOption = values?.map (past.reverse ++ ·) := by
  fun_induction readRun d past
  case case1 d past d₁ h       =>
    obtain ⟨as, r, hr, has⟩ := d.exists_takes_readRaw
    rw [h] at hr has
    refine ⟨as, r, some [], hr, has.map (fun _ => Spelled.run_of_none)
      fun _ _ => Spelled.run_of_delimiter, ?_⟩
    rw [Option.map_some, List.append_nil]
    rfl
  case case2 d past raw d₁ h hn hi =>
    have hx := d.exists_takes_readRaw
    rw [h] at hx
    obtain ⟨as, r, rfl, has⟩ := hx
    obtain ⟨bs, r', values?, hs, hbs, hv⟩ := hi
    refine ⟨as ++ bs, r', values?.map (unmap d.containsZero raw :: ·), hs, ?_, ?_⟩
    · exact has.append hbs (fun _ => Spelled.run_of_none)
        fun _ _ hx => Spelled.run_of_value hx hn
    · rw [hv, map_reverse_cons]
  case case3 d past e d₁ h     =>
    obtain ⟨as, r, hr, has⟩ := d.exists_takes_readRaw
    rw [h] at hr has
    exact ⟨as, r, none, hr, has.of_part fun _ => Spelled.run_of_none, rfl⟩

theorem exists_takes_readRow (d : Decoder) (n : Nat) (past : List UInt64) :
    ∃ as r' values?, (d.readRow n past).2 = { d with reader := r' } ∧
      d.reader.Takes (fun ds =>
        (Spelled.times (Spelled.value? d.header.bits.toNat d.containsZero) n ds).whole?) values?
        as r' ∧
      (d.readRow n past).1.toOption = values?.map (past.reverse ++ ·) := by
  have hnone (ds : List Bool) (h : Bits.element? d.header.bits.toNat ds = none) :
      Spelled.value? d.header.bits.toNat d.containsZero ds = none :=
    Option.map_eq_none_iff.2 h
  have hraw := d.exists_takes_readRaw
  fun_induction readRow d n past
  case case1 d past                =>
    refine ⟨[], d.reader, some [], rfl, .nil _ _, ?_⟩
    rw [Option.map_some, List.append_nil]
    rfl
  case case2 d past n raw d₁ h hi  =>
    rw [h] at hraw
    obtain ⟨as, r, rfl, has⟩ := hraw
    obtain ⟨bs, r', values?, hs, hbs, hv⟩ := hi hnone (exists_takes_readRaw _)
    refine ⟨as ++ bs, r', values?.map (unmap d.containsZero raw :: ·), hs, ?_, ?_⟩
    · refine has.append hbs (fun _ hx => Spelled.times_of_none (hnone _ hx) n) fun ds rest hx => ?_
      refine Spelled.times_of_some ?_ n
      rw [Spelled.value?, hx]
      rfl
    · rw [hv, map_reverse_cons]
  case case3 d past n e d₁ h       =>
    rw [h] at hraw
    obtain ⟨as, r, hr, has⟩ := hraw
    exact ⟨as, r, none, hr,
      has.of_part fun _ hx => Spelled.times_of_none (hnone _ hx) n, rfl⟩

theorem exists_takes_readSequence (d : Decoder) :
    ∃ as r', d.readSequence.2 = { d with reader := r' } ∧
      d.reader.Takes (Spelled.sequence? d.header d.containsZero) d.readSequence.1.toOption as
        r' := by
  rw [readSequence]
  by_cases hd : d.header.Delimited
  case pos =>
    obtain ⟨as, r, values?, hr, has, hv⟩ := d.exists_takes_readRun []
    rw [if_pos hd, Spelled.sequence?_of_delimited hd, hv.trans Option.map_id']
    exact ⟨as, r, hr, has⟩
  case neg =>
    obtain ⟨as, r, values?, hr, has, hv⟩ := d.exists_takes_readRow d.header.sequenceLength.toNat []
    rw [if_neg hd, Spelled.sequence?_of_not_delimited hd, hv.trans Option.map_id']
    exact ⟨as, r, hr, has⟩

theorem exists_takes_next (hn : d.remaining ≠ 0) :
    ∃ as, d.reader.Takes (Spelled.sequence? d.header d.containsZero) d.next.1.toOption.join as
        d.next.2.reader ∧
      d.next.2.header = d.header ∧ d.next.2.containsZero = d.containsZero := by
  obtain ⟨as, r, hr, has⟩ := d.exists_takes_readSequence
  rw [next, if_neg hn]
  rcases hs : d.readSequence with ⟨e | values, d₁⟩
  all_goals
    rw [hs] at hr has
    cases hr
    exact ⟨as, has, rfl, rfl⟩

-- Sequences that are read one by one are read as one item, and so is what is read after them.
theorem Gives.exists_takes {m : Nat} {as : List Source.Answer} {r : Bits.Reader}
    {sequences? : Option (List (List UInt64))} (h : d.Gives sequences d₁)
    (hm : d₁.reader.Takes (fun ds =>
      (Spelled.times (Spelled.sequence? d₁.header d₁.containsZero) m ds).whole?) sequences? as r) :
    ∃ as, d.reader.Takes (fun ds => (Spelled.times (Spelled.sequence? d.header d.containsZero)
      (sequences.length + m) ds).whole?) (sequences?.map (sequences ++ ·)) as r := by
  induction h
  case nil d                                 =>
    refine ⟨as, ?_⟩
    rw [List.length_nil, Nat.zero_add]
    exact (Option.map_id' (x := sequences?)).symm ▸ hm
  case cons d d₁ d' values sequences h hs hi =>
    have hn : d.remaining ≠ 0 := by
      have := remaining_next h
      omega
    obtain ⟨as, has, hh, hc⟩ := exists_takes_next hn
    obtain ⟨bs, hbs⟩ := hi hm
    rw [h] at has hh hc
    rw [hh, hc] at hbs
    have hx := has.append hbs (fun _ hx => Spelled.times_of_none hx _)
      (fun _ _ hx => Spelled.times_of_some hx _)
    rw [Option.map_map] at hx
    rw [List.length_cons, Nat.add_right_comm]
    exact ⟨as ++ bs, hx⟩

def withOnly (d : Decoder) (bytes : Bytes) : Decoder :=
  { d with reader := d.reader.withOnly bytes }

theorem ending_withOnly (d : Decoder) (bytes : Bytes) : (d.withOnly bytes).reader.ending = .ok () :=
  Source.ending_ofBytes bytes

theorem all_withOnly_of_none {m : Nat} {bytes : Bytes} (hm : m ≤ d.remaining)
    (h : (Spelled.times (Spelled.sequence? d.header d.containsZero) m
      (d.reader.withOnly bytes).digits).whole? = none) :
    (d.withOnly bytes).all.1 = .error .truncatedInput := by
  have hs : (d.withOnly bytes).spelled.rest = none :=
    Spelled.whole?_eq_none (Spelled.times_eq_none_of_le hm h)
  rw [all, readAll_of_none [] hs, shortage, ending_withOnly]
  rfl

-- Whatever is called, the source is asked only as long as what it gave is not all that remains.
theorem Gives.exists_sparing (h : d.Gives sequences d₁)
    (hl : d' = d₁ ∨ ∃ e, d₁.next = (.error e, d')) :
    ∃ as, Sparing d.reader.blockSize d.reader.source
        (fun bytes => (d.withOnly bytes).all.1 = .error .truncatedInput) as d'.reader.source ∧
      (d₁.remaining = 0 → ∀ more, (d.withOnly (received as ++ more)).all.1 = .ok sequences) := by
  have hr := h.remaining
  rcases hl with rfl | ⟨e, he⟩
  case inl =>
    -- Nothing is read after the sequences.
    have hm : d'.reader.Takes (fun ds =>
        (Spelled.times (Spelled.sequence? d'.header d'.containsZero) 0 ds).whole?) (some []) []
        d'.reader := .nil _ _
    obtain ⟨as, has⟩ := h.exists_takes hm
    refine ⟨as, (has.asks.imp fun bytes hs => all_withOnly_of_none (by omega) hs).sparing,
      fun hz more => ?_⟩
    have hw := Spelled.whole?_eq_some (has.whole _ rfl more)
    simp only [List.append_nil, show sequences.length + 0 = d.remaining by omega] at hw
    obtain ⟨d₂, ha, -⟩ := readAll_of_spelled (d := d.withOnly (received as ++ more)) [] hw
    rw [all, ha]
    rfl
  case inr =>
    have hn : d₁.remaining ≠ 0 := by
      intro hz
      rw [next_of_eq_zero hz] at he
      cases he
    obtain ⟨as, has, -⟩ := exists_takes_next hn
    rw [he] at has
    -- One more sequence is read, and falls short.
    have hm : d₁.reader.Takes (fun ds =>
        (Spelled.times (Spelled.sequence? d₁.header d₁.containsZero) 1 ds).whole?)
        (none : Option (List (List UInt64))) as d'.reader :=
      has.of_part fun _ hx => Spelled.times_of_none hx 0
    obtain ⟨bs, hbs⟩ := h.exists_takes hm
    exact ⟨bs, (hbs.asks.imp fun bytes hs => all_withOnly_of_none (by omega) hs).sparing,
      fun hz => absurd hz hn⟩

-- What all that remains comes to is told by the digits and the ending.
theorem all_fst_congr (hs : d'.spelled = d.spelled) (he : d'.reader.ending = d.reader.ending) :
    d'.all.1 = d.all.1 := by
  have hall (d : Decoder) : d.all.1 = d.deliver.outcome d.deliver.sequences := by
    obtain ⟨_, _, hg, hn⟩ := exists_gives_deliver d
    rw [all_eq hg hn]
  rw [hall, hall, deliver_eq, deliver_eq, hs, shortage, he, shortage]

variable {source : Source} {containsZero : Bool}

theorem opened_of_ofSource (h : (ofSource source containsZero).1 = .ok d) :
    let x := (Bits.Reader.ofSource source).readBytes Header.size
    d.reader = x.2 ∧ d.containsZero = containsZero ∧ Header.decode x.1.1 = .ok d.header ∧
      d.remaining = d.header.sequenceCount.toNat := by
  simp only [ofSource] at h
  split at h
  case h_1 => cases h
  case h_2 =>
    split at h
    case h_1    => cases h
    case h_2 hx => cases h; exact ⟨rfl, rfl, hx, rfl⟩

end Batch.Decoder

namespace Batch

def decode (source : Source) (containsZero : Bool) : Except Error (List (List UInt64)) :=
  (Decoder.ofSource source containsZero).1.bind (·.all.1)

namespace Decoder

variable {d d₁ d' : Decoder} {sequences : List (List UInt64)}

theorem exists_sparing_ofSource (source : Source) (containsZero : Bool) :
    ∃ as, Sparing Bytes.blockSize source
        (fun bytes => decode (.ofBytes bytes) containsZero = .error .truncatedInput) as
        (ofSource source containsZero).2 ∧
      ∀ d, (ofSource source containsZero).1 = .ok d →
        (ofSource source containsZero).2 = d.reader.source ∧
        d.reader.blockSize = Bytes.blockSize ∧
        ∀ more, decode (.ofBytes (received as ++ more)) containsZero = (d.withOnly more).all.1 := by
  rcases hr : (Bits.Reader.ofSource source).readBytes Header.size with ⟨⟨bytes, failure⟩, r⟩
  obtain ⟨as, has, hz, hb, hds⟩ := Bits.Reader.exists_asks_front hr
  have hs : (ofSource source containsZero).2 = r.source := by rw [ofSource, hr]
  refine ⟨as, hs ▸ has.imp fun bytes hl => ?_, fun d h => ?_⟩
  · rw [decode, ofSource_of_lt (by rwa [Source.supplied_ofBytes]) (Source.ending_ofBytes _)]
    rfl
  · obtain ⟨hr', hc, hd, hn⟩ := opened_of_ofSource h
    rw [hr] at hr' hd
    replace hd : Header.decode ((received as).take Header.size) = .ok d.header := hb ▸ hd
    have hl : Header.size ≤ (received as).length := by
      by_contra hl
      have hl := Nat.lt_of_not_le hl
      rw [List.take_of_length_le hl.le, Header.decode_of_lt hl] at hd
      cases hd
    refine ⟨hs.trans (congrArg _ hr'.symm), hr' ▸ hz, fun more => ?_⟩
    have hm : (Source.ofBytes (received as ++ more)).supplied = received as ++ more :=
      Source.supplied_ofBytes _
    have hd' : Header.decode ((received as ++ more).take Header.size) = .ok d.header := by
      rw [List.take_append_of_le_length hl, hd]
    rw [← hm] at hd'
    obtain ⟨d', s, hs', hh, hc', hn', hds', he⟩ := ofSource_of_decode hd' containsZero
    rw [decode, hs']
    refine all_fst_congr ?_
      (he.trans ((Source.ending_ofBytes _).trans (ending_withOnly d more).symm))
    have hg : (d.withOnly more).reader.digits =
        Bytes.digits ((received as ++ more).drop Header.size) := by
      rw [withOnly, hr', hds hl]
    rw [spelled, spelled, hh, hc', hn', hds', hm, hg, ← hn, ← hc]
    rfl

theorem exists_sparing_next (d : Decoder) : ∃ as, Sparing d.reader.blockSize d.reader.source
    (fun bytes => (d.withOnly bytes).next.1 = .error .truncatedInput) as
    d.next.2.reader.source := by
  by_cases hn : d.remaining = 0
  case pos => exact ⟨[], by rw [next_of_eq_zero hn]; exact .nil _ _⟩
  case neg =>
    obtain ⟨as, has, -⟩ := exists_takes_next hn
    refine ⟨as, (has.asks.imp fun bytes hs => ?_).sparing⟩
    obtain ⟨_, hnext⟩ := next_of_none (d := d.withOnly bytes) hn hs
    rw [hnext, shortage, ending_withOnly]
    rfl

theorem Gives.trans {more : List (List UInt64)} (h : d.Gives sequences d₁) (hm : d₁.Gives more d') :
    d.Gives (sequences ++ more) d' := by
  induction h
  case nil         => exact hm
  case cons h _ hi => exact .cons h (hi hm)

-- The ways to go on reading a batch.
inductive Continues (d : Decoder) : Decoder → Prop
  | call (call : Call) : d.Continues (call.after d)
  | iterator : d.Continues d.nextOrStop.2

theorem Continues.exists_gives (h : d.Continues d') : ∃ more d₁ d₂, d.Gives more d₁ ∧
    (d₂ = d₁ ∨ ∃ e, d₁.next = (.error e, d₂)) ∧ d'.reader = d₂.reader := by
  cases h
  case call call =>
    obtain ⟨d₁, hg, hl⟩ := call.gives d
    exact ⟨_, d₁, _, hg, hl, rfl⟩
  case iterator  =>
    obtain ⟨d₁, hg, hl⟩ := Call.next.gives d
    refine ⟨_, d₁, _, hg, hl, ?_⟩
    rw [nextOrStop, Call.after]
    rcases d.next with ⟨_ | _, _⟩ <;> rfl

theorem all_of_eq_zero (h : d.remaining = 0) : d.all.1 = .ok [] := by
  rw [all, readAll_of_end [] (next_of_eq_zero h)]
  rfl

theorem exists_sparing_of_continues (h : d.Gives sequences d₁) (h' : d₁.Continues d') :
    ∃ as, Sparing d.reader.blockSize d.reader.source
        (fun bytes => (d.withOnly bytes).all.1 = .error .truncatedInput) as d'.reader.source ∧
      (d₁.remaining = 0 → ∀ more, (d.withOnly (received as ++ more)).all.1 = .ok sequences) := by
  obtain ⟨more, d₂, d₃, hg, hl, hr⟩ := h'.exists_gives
  obtain ⟨as, has, hall⟩ := (h.trans hg).exists_sparing hl
  refine ⟨as, hr ▸ has, fun hz more' => ?_⟩
  have hr₂ := hg.remaining
  have hm : more = [] := List.length_eq_zero_iff.1 (by omega)
  rw [hall (by omega), hm, List.append_nil]

end Decoder
end Batch

-- A source is read only as long as what it has given does not do: it has given no element and no
-- byte that is not consumed, no stream up to its end, no batch up to the last of its sequences.
theorem reads_as_needed (source : Source) (containsZero : Bool) :
    (∀ blockSize calls (call : Bits.Reader.Call),
      let start := Bits.Reader.ofSource source blockSize
      let r := start.run calls
      (∃ past, Draws start.blockSize source past r.source) ∧
      ∃ as, Sparing start.blockSize r.source
          (fun bytes => call.spare r + 8 * bytes.length < call.need) as (call.after r).source ∧
        call.spare (call.after r) = call.spare r + 8 * (received as).length - call.need) ∧
    (∃ as, Sparing Bytes.blockSize source
        (fun bytes => (Stream.decode (.ofBytes bytes) containsZero).1.failure =
          some (if bytes = [] then .truncatedInput else .missingEndMarker))
        as (Stream.decode source containsZero).2 ∧
      ((Stream.decode source containsZero).1.failure = none →
        (Stream.decode (.ofBytes (received as)) containsZero).1 =
          (Stream.decode source containsZero).1 ∧
        IsLeast {k | ∃ bs s, Draws Bytes.blockSize source bs s ∧
          (Stream.decode (.ofBytes (received bs)) containsZero).1.failure = none ∧ pieces bs = k}
          (pieces as))) ∧
    (∃ as, Sparing Bytes.blockSize source
        (fun bytes => Batch.decode (.ofBytes bytes) containsZero = .error .truncatedInput) as
        (Batch.Decoder.ofSource source containsZero).2) ∧
    (∀ d s, Batch.Decoder.ofSource source containsZero = (.ok d, s) → ∀ sequences d₁ d',
      d.Gives sequences d₁ → d₁.Continues d' →
      ∃ as, Sparing Bytes.blockSize source
          (fun bytes => Batch.decode (.ofBytes bytes) containsZero = .error .truncatedInput) as
          d'.reader.source ∧
        (d₁.remaining = 0 →
          Batch.decode (.ofBytes (received as)) containsZero = .ok sequences ∧
          IsLeast {k | ∃ bs s, Draws Bytes.blockSize source bs s ∧
            (∃ sequences, Batch.decode (.ofBytes (received bs)) containsZero = .ok sequences) ∧
            pieces bs = k} (pieces as))) ∧
    ∀ d : Batch.Decoder,
      (∃ as, Sparing d.reader.blockSize d.reader.source
        (fun bytes => (d.withOnly bytes).next.1 = .error .truncatedInput) as
        d.next.2.reader.source) ∧
      ∀ d', d.Continues d' → ∃ as, Sparing d.reader.blockSize d.reader.source
          (fun bytes => (d.withOnly bytes).all.1 = .error .truncatedInput) as d'.reader.source ∧
        (d.remaining = 0 → as = []) := by
  refine ⟨fun blockSize calls call => ?_, ?_, ?_, fun d s h sequences d₁ d' hg hc => ?_,
    fun d => ⟨d.exists_sparing_next, fun d' hc => ?_⟩⟩
  · intro start r
    obtain ⟨past, hp, hz⟩ := start.exists_draws_run calls
    obtain ⟨as, has, hs⟩ := call.exists_asks r
    exact ⟨⟨past, hp⟩, as, hz ▸ has.sparing, hs⟩
  -- Fewer pieces would leave the stream without its end.
  · obtain ⟨as, has, hw⟩ := Stream.exists_sparing_decode source containsZero
    refine ⟨as, has, fun hf => ?_⟩
    have hwas := hw hf []
    rw [List.append_nil] at hwas
    refine ⟨hwas, has.isLeast (fun bytes =>
      (Stream.decode (.ofBytes bytes) containsZero).1.failure = none) (hwas ▸ hf) ?_⟩
    intro bytes hs hn
    rw [hs] at hn
    cases hn
  · obtain ⟨as, has, -⟩ := Batch.Decoder.exists_sparing_ofSource source containsZero
    exact ⟨as, has⟩
  · obtain ⟨as, has, hok⟩ := Batch.Decoder.exists_sparing_ofSource source containsZero
    rw [h] at has hok
    obtain ⟨hs, hz, hmore⟩ := hok d rfl
    obtain ⟨bs, hbs, hall⟩ := Batch.Decoder.exists_sparing_of_continues hg hc
    rw [hz] at hbs
    -- What was read for the header does not do either, as long as what follows does not.
    have hsp := (hs ▸ has).append (hbs.imp fun bytes hb => (hmore bytes).trans hb)
    refine ⟨as ++ bs, hsp, fun hn => ?_⟩
    have hd : Batch.decode (.ofBytes (received (as ++ bs))) containsZero = .ok sequences := by
      have hbs := hall hn []
      rw [List.append_nil] at hbs
      rw [received_append, hmore, hbs]
    refine ⟨hd, hsp.isLeast (fun bytes =>
      ∃ sequences, Batch.decode (.ofBytes bytes) containsZero = .ok sequences) ⟨_, hd⟩ ?_⟩
    rintro bytes hb ⟨ss, hss⟩
    rw [hb] at hss
    cases hss
  · obtain ⟨as, has, -⟩ := Batch.Decoder.exists_sparing_of_continues (.nil d) hc
    refine ⟨as, has, fun hn => has.eq_nil fun bytes hb => ?_⟩
    rw [Batch.Decoder.all_of_eq_zero (d := d.withOnly bytes) hn] at hb
    cases hb

-- A stream and a batch that come in three pieces with an interruption, and more after them: three
-- pieces are asked for, and neither the failure nor the data that would follow.
theorem reads_as_needed_in_pieces :
    let stream : Source := { answers := [.data [3], .interrupted, .data [0xC7], .data [0x80],
      .failure .notFound] }
    let batch : Source := { answers := [.data [3, 0, 0, 0, 0], .interrupted,
      .data [0, 0, 0, 2, 0xC0], .data [0xF0], .data [1]] }
    ((Stream.decode stream true).1 = ⟨[5, 0, 6], none⟩ ∧
      ∃ as, Draws Bytes.blockSize stream as (Stream.decode stream true).2 ∧ as.length = 4 ∧
        IsLeast {k | ∃ bs s, Draws Bytes.blockSize stream bs s ∧
          (Stream.decode (.ofBytes (received bs)) true).1.failure = none ∧ pieces bs = k}
          (pieces as)) ∧
    ∃ d s d₁ as, Batch.Decoder.ofSource batch true = (.ok d, s) ∧ d.Gives [[5], [0, 6]] d₁ ∧
      d₁.remaining = 0 ∧ Draws Bytes.blockSize batch as d₁.nextOrStop.2.reader.source ∧
      IsLeast {k | ∃ bs s, Draws Bytes.blockSize batch bs s ∧
        (∃ sequences, Batch.decode (.ofBytes (received bs)) true = .ok sequences) ∧
        pieces bs = k} (pieces as) := by
  intro stream batch
  have hs : (Stream.decode stream true).1 = ⟨[5, 0, 6], none⟩ := by decide +kernel
  have hq : (Stream.decode stream true).2.requests = List.replicate 4 Bytes.blockSize := by
    decide +kernel
  have hb : (Batch.Decoder.ofSource batch true).1.map (·.deliver) =
      .ok ⟨[[5], [0, 6]], none⟩ := by decide +kernel
  obtain ⟨-, ⟨as, has, hl⟩, -, -, -⟩ := reads_as_needed stream true
  obtain ⟨-, -, -, hbatch, -⟩ := reads_as_needed batch true
  refine ⟨⟨hs, as, has.draws, ?_, (hl (by rw [hs])).right⟩, ?_⟩
  · have hr := has.draws.requests
    rw [hq, List.append_nil] at hr
    have hlen := congrArg List.length hr
    rw [List.length_replicate, List.length_replicate] at hlen
    exact hlen.symm
  · rcases h : Batch.Decoder.ofSource batch true with ⟨e | d, s⟩
    case error => rw [h] at hb; cases hb
    case ok    =>
      rw [h] at hb
      have hd : d.deliver = ⟨[[5], [0, 6]], none⟩ := Except.ok.inj hb
      obtain ⟨d₁, d', hg, hn⟩ := d.exists_gives_deliver
      rw [hd] at hg hn
      obtain ⟨hz, -⟩ := Batch.Decoder.remaining_of_end hn
      obtain ⟨bs, hbs, hl⟩ := hbatch d s h _ d₁ _ hg .iterator
      exact ⟨d, s, d₁, bs, rfl, hg, hz, hbs.draws, (hl hz).right⟩

end BitPacking
