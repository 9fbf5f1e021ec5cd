import BitPacking.Proofs.Pipe.Content
import BitPacking.Proofs.Stream.Decoder
import BitPacking.Stream.Reception

namespace BitPacking.Stream

variable {c : Config} {values front : List UInt64} {got bytes : Bytes} {ds : List Bool}
variable {source : Source}

namespace Decoder

variable {d : Decoder}

def supply (d : Decoder) (a : Source.Answer) : Decoder :=
  { d with reader := { d.reader with source := d.reader.source.supply a } }

theorem Matches.supply (hm : d.Matches c) (a : Source.Answer) : (d.supply a).Matches c :=
  ⟨hm.bits, hm.containsZero⟩

theorem readOn_starved (hm : d.Matches c) (hu : d.reader.source.Undecided) (past : List UInt64)
    (k : Nat) (hd : d.reader.digits.length < c.bits) :
    ∃ s, d.readOn past k = ⟨d, past, k, .error .wouldBlock, s⟩ ∧
      s.starved = some d.reader.blockSize := by
  have ⟨r, hr, hs⟩ := Bits.Reader.readBits_starved hu (hm.bits ▸ hd)
  refine ⟨r.source, ?_, hs⟩
  rw [readOn]
  split
  case h_1 hx   => rw [hr] at hx; cases hx
  case h_2 _ hx => rw [hr] at hx; cases hx; rfl

theorem reader_of_ofSource {containsZero : Bool} {after : Source}
    (h : ofSource source containsZero = (.ok d, after)) :
    d.reader = ((Bits.Reader.ofSource source).readBytes Header.size).2 ∧
      d.reader.source = after := by
  simp only [ofSource, Prod.mk.injEq] at h
  obtain ⟨hd, hs⟩ := h
  split at hd
  case h_1 => cases hd
  case h_2 =>
    split at hd
    case h_1 => cases hd
    case h_2 => cases hd; exact ⟨rfl, hs⟩

theorem ofSource_starved (hu : source.Undecided) (hs : source.supplied = []) (containsZero : Bool) :
    ∃ n, n ≠ 0 ∧ (ofSource source containsZero).2.starved = some n := by
  have ⟨r, hr, hst⟩ := Bits.Reader.nextByte_starved (r := .ofSource source) hu hs
  refine ⟨_, Nat.ne_of_gt (Bits.Reader.ofSource source).blockSize_pos, ?_⟩
  simp only [ofSource, Header.size, Bits.Reader.readBytes, hr]
  exact hst

theorem ofSource_undecided (hu : source.Undecided)
    (hs : Bytes.digits source.supplied = Bits.digits 8 c.bits ++ ds) :
    ∃ d s, ofSource source c.containsZero = (.ok d, s) ∧ s.starved = none ∧ d.Matches c ∧
      d.reader.digits = ds ∧ d.reader.source.Undecided := by
  have ⟨d, s, hd, hm, hds, _⟩ := ofSource_ok hs
  have ⟨hr, hs'⟩ := reader_of_ofSource hd
  have hl := congrArg List.length hs
  have hle : Header.size ≤ (Bits.Reader.ofSource source).bytes.length := by
    simp [Header.size] at hl ⊢
    omega
  have hu' := hr ▸ (Bits.Reader.readBytes_undecided hu hle).left
  exact ⟨d, s, hd, hs' ▸ hu'.starved, hm, hds, hu'⟩

theorem readOn_endMark (hm : d.Matches c) (hu : d.reader.source.Undecided) (past : List UInt64)
    (k : Nat) (hd : d.reader.digits = c.endMark ++ ds) :
    ∃ s, d.readOn past k = ⟨d, past, k, .ok (some delimiter), s⟩ ∧ s.starved = none := by
  have ⟨r, hr, _⟩ := Bits.Reader.readBits_element hd (Nat.two_pow_pos c.bits)
  have hl : c.bits ≤ d.reader.digits.length := by simp [hd]
  have ⟨hu', _⟩ := Bits.Reader.readBits_undecided hu hl hr
  exact ⟨r.source, readOn_of_delimiter past k (hm.bits ▸ hr), hu'.starved⟩

end Decoder

namespace Reception

-- The state of decoding after some bytes of a stream that does not end with them. All values that
-- are complete were delivered, and they are among those of the stream.
inductive Awaits (c : Config) (values : List UInt64) (got : Bytes) : Reception → Prop
  | opening {source : Source} {n : Nat} (hn : n ≠ 0) (hg : got = []) (hu : source.Undecided)
      (hs : source.supplied = []) :
      Awaits c values got (.opening source c.containsZero n)
  | reading {d : Decoder} {past : List UInt64} {n : Nat} (hn : n ≠ 0) (hm : d.Matches c)
      (hu : d.reader.source.Undecided) (hp : past.reverse <+: values)
      (hd : Bytes.digits got = Stream.opening c past.reverse ++ d.reader.digits)
      (hl : d.reader.digits.length < c.bits) :
      Awaits c values got (.reading d past past.length n)

theorem Awaits.mono {r : Reception} (h : Awaits c front got r) (hp : front <+: values) :
    Awaits c values got r := by
  cases h
  case opening hn hg hu hs         => exact .opening hn hg hu hs
  case reading hn hm hu hp' hd hl  => exact .reading hn hm hu (hp'.trans hp) hd hl

theorem Awaits.not_done {r : Reception} (h : Awaits c values got r) : r.decoded? = none := by
  cases h <;> rfl

theorem Awaits.request {r : Reception} (h : Awaits c values got r) :
    ∃ n, n ≠ 0 ∧ r.request? = some n := by
  cases h
  case opening hn _ _ _     => exact ⟨_, hn, rfl⟩
  case reading hn _ _ _ _ _ => exact ⟨_, hn, rfl⟩

theorem ofSource_awaits (hu : source.Undecided) (hs : source.supplied = []) :
    Awaits c values [] (ofSource source c.containsZero) := by
  have ⟨n, hn, hst⟩ := Decoder.ofSource_starved hu hs c.containsZero
  simp only [ofSource, hst]
  exact .opening hn rfl hu hs

theorem new_awaits (c : Config) : Awaits c [] [] (new c.containsZero) :=
  ofSource_awaits ⟨rfl, rfl, rfl⟩ rfl

theorem ofDecoder_elements {d : Decoder} {past more : List UInt64} (hm : d.Matches c)
    (hu : d.reader.source.Undecided) (ha : ∀ v ∈ more, c.Accepts v)
    (hd : d.reader.digits = more.flatMap c.element ++ ds) (hl : ds.length < c.bits)
    (hp : past.reverse ++ more <+: values)
    (hg : Bytes.digits got = Stream.opening c (past.reverse ++ more) ++ ds) :
    Awaits c values got (ofDecoder d past past.length) := by
  have ⟨r, hr, hds, _, hun⟩ := Decoder.readOn_elements hm ha past past.length hd
  have ⟨hu', hz⟩ := hun hu
  have ⟨s, hs, hst⟩ :=
    Decoder.readOn_starved (hm.read r) hu' (more.reverse ++ past) (more.reverse ++ past).length
      (hds ▸ hl)
  have hk : past.length + more.length = (more.reverse ++ past).length := by simp [Nat.add_comm]
  rw [hk] at hr
  have he : (more.reverse ++ past).reverse = past.reverse ++ more := by simp
  simp only [ofDecoder, hr, hs, hst]
  refine .reading (Nat.ne_of_gt r.blockSize_pos) (hm.read r) hu' (he ▸ hp) ?_ (hds ▸ hl)
  rw [he, hds, hg]

theorem ofDecoder_whole {d : Decoder} {past more : List UInt64} (hm : d.Matches c)
    (hu : d.reader.source.Undecided) (ha : ∀ v ∈ more, c.Accepts v)
    (hd : d.reader.digits = more.flatMap c.element ++ (c.endMark ++ ds)) :
    ofDecoder d past past.length =
      .done ⟨past.reverse ++ more, none⟩ := by
  have ⟨r, hr, hds, _, hun⟩ := Decoder.readOn_elements hm ha past past.length hd
  have ⟨s, hs, hst⟩ :=
    Decoder.readOn_endMark (hm.read r) (hun hu).left (more.reverse ++ past)
      (past.length + more.length) hds
  simp only [ofDecoder, hr, hs, hst]
  exact congrArg done (Decoded.mk_congr none (by simp) (by simp))

variable {r : Reception}

theorem feed_opening_data (source : Source) (containsZero : Bool) (n : Nat) (bytes : Bytes) :
    (Reception.opening source containsZero n).feed (.data bytes) =
      ofSource (source.supply (.data bytes)) containsZero :=
  rfl

theorem feed_opening_endOfInput (source : Source) (containsZero : Bool) (n : Nat) :
    (Reception.opening source containsZero n).feed .endOfInput =
      .done (decode (source.supply .endOfInput) containsZero).1 :=
  rfl

theorem feed_reading_data (d : Decoder) (past : List UInt64) (k n : Nat) (bytes : Bytes) :
    (Reception.reading d past k n).feed (.data bytes) =
      ofDecoder (d.supply (.data bytes)) past k :=
  rfl

theorem feed_reading_endOfInput (d : Decoder) (past : List UInt64) (k n : Nat) :
    (Reception.reading d past k n).feed .endOfInput =
      .done ((d.supply .endOfInput).readOn past k).decoded :=
  rfl

theorem Awaits.feed_data (h : Awaits c values got r) (ha : ∀ v ∈ values, c.Accepts v)
    (hb : bytes ≠ []) (hu : Unfinished c values (got ++ bytes)) :
    Awaits c values (got ++ bytes) (r.feed (.data bytes)) := by
  have ⟨front, hf, ds, hl, hd⟩ := hu.resolve_left (by simp [hb])
  have haf : ∀ v ∈ front, c.Accepts v := fun v hv => ha v (hf.subset hv)
  cases h
  case opening source n hn hg hu hs =>
    have ⟨hu', hs'⟩ := hu.supply (a := .data bytes) id
    subst hg
    have hds : Bytes.digits (source.supply (.data bytes)).supplied =
        Bits.digits 8 c.bits ++ (front.flatMap c.element ++ ds) := by
      rw [hs', hs, ← List.append_assoc]
      exact hd
    have ⟨d, s, hd', hst, hm, hdd, hud⟩ := Decoder.ofSource_undecided hu' hds
    simp only [feed_opening_data, ofSource, hd', hst]
    exact ofDecoder_elements hm hud haf hdd hl hf hd
  case reading d past n hn hm hu hp hg _ =>
    have ⟨hu', hds⟩ := Bits.Reader.digits_supply hu (a := .data bytes) id
    rw [Bytes.digits_append, hg, List.append_assoc] at hd
    have ⟨more, hmore, hds'⟩ := opening_split hp hf hd hl
    subst hmore
    rw [feed_reading_data]
    refine ofDecoder_elements (hm.supply _) hu' (fun v hv => haf v ?_) (hds.trans hds') hl hf ?_
    · exact List.mem_append_right _ hv
    · rw [Bytes.digits_append, hg, List.append_assoc]
      exact hd

-- The piece with the end of the end mark is the last one that is looked at.
theorem Awaits.feed_last (h : Awaits c values got r) (ha : ∀ v ∈ values, c.Accepts v)
    (hw : Whole c values (got ++ bytes)) : r.feed (.data bytes) = .done ⟨values, none⟩ := by
  have ⟨k, _, hd⟩ := hw
  rw [List.append_assoc] at hd
  cases h
  case opening source n hn hg hu hs =>
    have ⟨hu', hs'⟩ := hu.supply (a := .data bytes) id
    subst hg
    have hds : Bytes.digits (source.supply (.data bytes)).supplied = Bits.digits 8 c.bits ++
        (values.flatMap c.element ++ (c.endMark ++ List.replicate k false)) := by
      rw [hs', hs, ← List.append_assoc]
      exact hd
    have ⟨d, s, hd', hst, hm, hdd, hud⟩ := Decoder.ofSource_undecided hu' hds
    simp only [feed_opening_data, ofSource, hd', hst]
    exact ofDecoder_whole hm hud ha hdd
  case reading d past n hn hm hu hp hg _ =>
    have ⟨hu', hds⟩ := Bits.Reader.digits_supply hu (a := .data bytes) id
    have ⟨more, hmore⟩ := hp
    rw [Bytes.digits_append, hg, ← hmore, opening_append, List.append_assoc,
      List.append_assoc] at hd
    have ham : ∀ v ∈ more, c.Accepts v := fun v hv => ha v (hmore ▸ List.mem_append_right _ hv)
    rw [feed_reading_data, ofDecoder_whole (hm.supply (.data bytes)) hu' ham
      (hds.trans (List.append_cancel_left hd)), hmore]

-- Where nothing came in there is no header, and otherwise the end mark is missing.
theorem Awaits.feed_endOfInput (h : Awaits c values got r) :
    (got = [] ∧ r.feed .endOfInput = .done ⟨[], some .truncatedInput⟩) ∨
      (got ≠ [] ∧ ∃ front, front <+: values ∧
        r.feed .endOfInput = .done ⟨front, some .missingEndMarker⟩) := by
  cases h
  case opening source n hn hg hu hs =>
    have ⟨hs', he⟩ := hu.supply_endOfInput
    refine .inl ⟨hg, ?_⟩
    rw [feed_opening_endOfInput, decode_nil (hs'.trans hs) he]
  case reading d past n hn hm hu hp hg hl =>
    have ⟨hs', he⟩ := hu.supply_endOfInput
    have hcut : Cut c past.reverse got := ⟨_, hl, hg⟩
    have hl' : (d.supply .endOfInput).reader.digits.length < c.bits := by
      simpa only [Bits.Reader.digits, Bits.Reader.bytes, Decoder.supply, hs'] using hl
    refine .inr ⟨hcut.ne_nil, past.reverse, hp, ?_⟩
    rw [feed_reading_endOfInput, Decoder.decoded_of_lt (hm.supply _) past _ he hl']
    exact congrArg _ (Decoded.mk_congr _ rfl List.length_reverse.symm)

theorem Awaits.unfinished (h : Awaits c values got r) : Unfinished c values got := by
  cases h
  case opening hg _ _        => exact .inl hg
  case reading hp hg hl      => exact .inr ⟨_, hp, _, hl, hg⟩

variable {p : Pipe} {sent : Bytes}

-- What a step of decoding comes to, where all that was sent is known.
inductive Receiving (c : Config) (values : List UInt64) (sent : Bytes) (p : Pipe) :
    Option Reception × Pipe → Prop
  | more {r : Reception} {p' : Pipe} {got : Bytes} (h : Awaits c values got r)
      (hs : sent = got ++ p'.content) (hc : p'.Clean) (hh : p.SameHands p') :
      Receiving c values sent p (some r, p')
  | whole {p' : Pipe} (hw : Whole c values sent) :
      Receiving c values sent p (some (.done ⟨values, none⟩), p')
  | truncated {p' : Pipe} (hc : p.isClosed = true) (hs : sent = []) :
      Receiving c values sent p (some (.done ⟨[], some .truncatedInput⟩), p')
  | cut {p' : Pipe} {front : List UInt64} (hc : p.isClosed = true) (hs : sent ≠ [])
      (hu : Unfinished c values sent) (hf : front <+: values) :
      Receiving c values sent p (some (.done ⟨front, some .missingEndMarker⟩), p')
  | waiting (hc : p.isClosed = false) (hq : p.queue = []) :
      Receiving c values sent p (none, { p with waiting := true })

theorem Awaits.step (h : Awaits c values got r) (ha : ∀ v ∈ values, c.Accepts v) (hc : p.Clean)
    (hs : sent = got ++ p.content) (hw : Whole c values sent ∨ Unfinished c values sent) :
    Receiving c values sent p (r.step p) := by
  have ⟨n, hn, hreq⟩ := h.request
  have hx := hc.answering hn
  simp only [Reception.step, hreq]
  generalize p.answer n = x at hx
  cases hx
  case data bytes p' hb hc' hh he =>
    rw [he, ← List.append_assoc] at hs
    have hp : got ++ bytes <+: sent := ⟨_, hs.symm⟩
    by_cases hl : Whole c values (got ++ bytes)
    case pos =>
      -- Nothing is sent behind the end mark.
      have hsent : got ++ bytes = sent := by
        by_contra hne
        cases hw
        case inl hw => exact hl.not_unfinished (hw.unfinished_of_prefix hp hne)
        case inr hu => exact hl.not_unfinished (hu.of_prefix hp)
      simp only [h.feed_last ha hl]
      exact .whole (hsent ▸ hl)
    case neg =>
      have hu : Unfinished c values (got ++ bytes) := by
        cases hw
        case inl hw => exact hw.unfinished_of_prefix hp (fun he => hl (he ▸ hw))
        case inr hu => exact hu.of_prefix hp
      have h' := h.feed_data ha hb hu
      simp only [h'.not_done]
      exact .more h' hs hc' hh
  case ended hcl he =>
    rw [he, List.append_nil] at hs
    rcases h.feed_endOfInput with ⟨hg, hf⟩ | ⟨hg, front, hp, hf⟩
    · simp only [hf]
      exact .truncated hcl (hs.trans hg)
    · simp only [hf]
      exact .cut hcl (hs ▸ hg) (hs ▸ h.unfinished) hp
  case waiting hcl hq he => exact .waiting hcl hq

end Reception
end BitPacking.Stream
