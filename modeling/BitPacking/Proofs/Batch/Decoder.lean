import BitPacking.Batch.Decoder
import BitPacking.Proofs.Batch.Encoder
import BitPacking.Proofs.Bits.Reader

namespace BitPacking.Batch.Decoder

-- A decoder for what an encoder with some configuration packs.
structure Matches (d : Decoder) (c : Config) : Prop where
  bits           : d.header.bits.toNat = c.bits
  sequenceLength : d.header.sequenceLength = c.sequenceLength
  containsZero   : d.containsZero = c.containsZero

variable {d : Decoder} {c : Config} {value : UInt64} {values : List UInt64} {ds : List Bool}

theorem ofSource_ok {source : Source} {header : Header} {body : Bytes} (containsZero : Bool)
    (hw : IsValidWidth header.bits.toNat) (hs : source.supplied = header.encode ++ body) :
    ∃ d s, ofSource source containsZero = (.ok d, s) ∧ d.header = header ∧
      d.containsZero = containsZero ∧ d.remaining = header.sequenceCount.toNat ∧
      d.reader.digits = Bytes.digits body ∧ d.reader.ending = source.ending := by
  have ⟨r, hr, hd, he⟩ := Bits.Reader.readBytes_ofSource hs
  have hh : Header.decode header.encode = .ok header := by
    have h := Header.decode_encode_append header []
    rwa [List.append_nil, Header.validate_eq_ok_iff.2 hw] at h
  rw [Header.length_encode] at hr
  refine ⟨⟨r, header, hw, containsZero, header.sequenceCount.toNat⟩, r.source, ?_, rfl, rfl, rfl,
    hd, he⟩
  simp only [ofSource, hr]
  split
  case h_1 h => simp [hr, hh] at h
  case h_2 h =>
    simp only [hr, hh, Except.ok.injEq] at h
    cases h
    rfl

theorem ofSource_of_lt {source : Source} (hs : source.supplied.length < Header.size)
    (he : source.ending = .ok ()) (containsZero : Bool) :
    (ofSource source containsZero).1 = .error .truncatedInput := by
  have hr := Bits.Reader.readBytes_of_lt (r := .ofSource source) hs
  have he' : (Bits.Reader.ofSource source).ending = .ok () := he
  rw [Bits.Reader.bytes_ofSource, he'] at hr
  have ⟨r, hr⟩ : ∃ r, (Bits.Reader.ofSource source).readBytes Header.size =
      ((source.supplied, none), r) := ⟨_, Prod.ext hr rfl⟩
  have hh := Header.decode_of_lt hs
  simp only [ofSource, hr]
  split
  case h_1 h =>
    rw [hr, hh] at h
    cases h
    rfl
  case h_2 h => rw [hr, hh] at h; cases h

theorem readRaw_element {e : UInt64} (hd : d.reader.digits = Bits.digits c.bits e.toNat ++ ds)
    (hm : d.Matches c) (he : e.toNat < 2 ^ c.bits) :
    ∃ r, d.readRaw = (.ok e, { d with reader := r }) ∧ r.digits = ds ∧
      r.ending = d.reader.ending := by
  have ⟨r, hr, hds, her⟩ := Bits.Reader.readBits_element hd he
  refine ⟨r, ?_, hds, her⟩
  rw [readRaw, hm.bits, hr]

theorem readRaw_of_lt (hm : d.Matches c) (he : d.reader.ending = .ok ())
    (hd : d.reader.digits.length < c.bits) :
    ∃ d', d.readRaw = (.error .truncatedInput, d') := by
  have hr := Bits.Reader.readBits_of_lt (hm.bits ▸ hd)
  rw [he] at hr
  refine ⟨{ d with reader := (d.reader.readBits d.header.bits.toNat).2 }, ?_⟩
  rw [readRaw]
  split
  case h_1 hx => rw [hx] at hr; cases hr
  case h_2 hx => rw [hx]
  case h_3 hx => rw [hx] at hr; cases hr

theorem Matches.unmap_stored (hm : d.Matches c) (hv : c.Holds value) :
    unmap d.containsZero (c.stored value) = value := by
  rw [hm.containsZero]
  exact hv.unmap_stored

theorem Matches.read (hm : d.Matches c) (r : Bits.Reader) :
    ({ d with reader := r } : Decoder).Matches c :=
  ⟨hm.bits, hm.sequenceLength, hm.containsZero⟩

theorem Matches.delimited_iff (hm : d.Matches c) : d.header.Delimited ↔ c.Delimited := by
  rw [Header.Delimited, Config.Delimited, hm.sequenceLength]

theorem readRow_of_elements (hm : d.Matches c) (hs : ∀ v ∈ values, c.Holds v) (n : Nat)
    (past : List UInt64) (hd : d.reader.digits = values.flatMap c.element ++ ds) :
    ∃ r, d.readRow (values.length + n) past =
        { d with reader := r }.readRow n (values.reverse ++ past) ∧
      r.digits = ds ∧ r.ending = d.reader.ending := by
  induction values generalizing d past
  case nil          => exact ⟨d.reader, by rw [List.length_nil, Nat.zero_add]; rfl, hd, rfl⟩
  case cons v vs hi =>
    obtain ⟨hv, hvs⟩ := List.forall_mem_cons.1 hs
    rw [List.flatMap_cons, List.append_assoc] at hd
    obtain ⟨r₁, hr₁, hd₁, he₁⟩ := readRaw_element hd hm hv.stored_lt
    obtain ⟨r, hr, hds, he⟩ := hi (hm.read r₁) hvs (v :: past) hd₁
    refine ⟨r, ?_, hds, he.trans he₁⟩
    rw [List.length_cons, Nat.add_right_comm, readRow, hr₁]
    simp only [hm.unmap_stored hv, hr, List.reverse_cons, List.append_assoc, List.singleton_append]

theorem readRun_of_elements (hm : d.Matches c) (hs : ∀ v ∈ values, c.Holds v)
    (hn : ∀ v ∈ values, c.stored v ≠ delimiter) (past : List UInt64)
    (hd : d.reader.digits = values.flatMap c.element ++ ds) :
    ∃ r, d.readRun past = { d with reader := r }.readRun (values.reverse ++ past) ∧
      r.digits = ds ∧ r.ending = d.reader.ending := by
  induction values generalizing d past
  case nil          => exact ⟨d.reader, rfl, hd, rfl⟩
  case cons v vs hi =>
    have ⟨hv, hvs⟩ := List.forall_mem_cons.1 hs
    have ⟨hvn, hvsn⟩ := List.forall_mem_cons.1 hn
    rw [List.flatMap_cons, List.append_assoc] at hd
    have ⟨r₁, hr₁, hd₁, he₁⟩ := readRaw_element hd hm hv.stored_lt
    have ⟨r, hr, hds, he⟩ := hi (hm.read r₁) hvs hvsn (v :: past) hd₁
    refine ⟨r, ?_, hds, he.trans he₁⟩
    rw [readRun]
    split
    case h_1 h =>
      rw [hr₁] at h
      cases h
      rw [if_neg hvn, hm.unmap_stored hv, hr, List.reverse_cons, List.append_assoc]
      rfl
    case h_2 h => rw [hr₁] at h; cases h

theorem readRun_elements (hm : d.Matches c) (hs : ∀ v ∈ values, c.Holds v)
    (hn : ∀ v ∈ values, c.stored v ≠ delimiter) (past : List UInt64)
    (hd : d.reader.digits = values.flatMap c.element ++ c.endMark ++ ds) :
    ∃ r, d.readRun past = (.ok (past.reverse ++ values), { d with reader := r }) ∧
      r.digits = ds ∧ r.ending = d.reader.ending := by
  rw [List.append_assoc] at hd
  have ⟨r₁, hr₁, hd₁, he₁⟩ := readRun_of_elements hm hs hn past hd
  have hz : delimiter.toNat < 2 ^ c.bits := Nat.two_pow_pos c.bits
  have ⟨r, hr, hds, he⟩ := readRaw_element hd₁ (hm.read r₁) hz
  refine ⟨r, ?_, hds, he.trans he₁⟩
  rw [hr₁, readRun]
  split
  case h_1 h =>
    rw [hr] at h
    cases h
    rw [if_pos rfl, List.reverse_append, List.reverse_reverse]
  case h_2 h => rw [hr] at h; cases h

theorem readSequence_admitted (hm : d.Matches c) (ha : c.Admits values)
    (hd : d.reader.digits = c.sequence values ++ ds) :
    ∃ r, d.readSequence = (.ok values, { d with reader := r }) ∧ r.digits = ds ∧
      r.ending = d.reader.ending := by
  rw [Config.sequence] at hd
  rw [readSequence]
  split
  case isTrue h  =>
    have hc := hm.delimited_iff.1 h
    rw [if_pos hc] at hd
    exact readRun_elements hm ha.holds (ha.no_delimiter hc) [] hd
  case isFalse h =>
    have hc : ¬c.Delimited := (h <| hm.delimited_iff.2 ·)
    rw [if_neg hc, List.append_nil] at hd
    obtain ⟨r, hr, hds, he⟩ := readRow_of_elements hm ha.holds 0 [] hd
    refine ⟨r, ?_, hds, he⟩
    rw [hm.sequenceLength, ← ha.length hc]
    exact hr.trans (by rw [readRow, List.append_nil, List.reverse_reverse])

-- What breaks off within a sequence has too few digits for one of its elements or for its end mark.
theorem readSequence_of_prefix (hm : d.Matches c) (he : d.reader.ending = .ok ())
    (ha : c.Admits values) (hd : d.reader.digits <+: c.sequence values)
    (hl : d.reader.digits.length < (c.sequence values).length) :
    ∃ d', d.readSequence = (.error .truncatedInput, d') := by
  rw [Config.sequence, List.length_append, Config.length_elements] at hl
  have hb : d.reader.digits.length < values.length * c.bits + c.bits := by
    split at hl
    case isTrue  => rwa [Config.length_endMark] at hl
    case isFalse => exact hl.trans_le (Nat.add_le_add_left (Nat.zero_le _) _)
  obtain ⟨front, ds, hf, hds, hx⟩ := Config.exists_elements_of_prefix hd hb
  have hs (v : UInt64) (hv : v ∈ front) : c.Holds v := ha.holds v (hf.subset hv)
  rw [readSequence]
  split
  case isTrue h  =>
    have hn (v : UInt64) (hv : v ∈ front) : c.stored v ≠ delimiter :=
      ha.no_delimiter (hm.delimited_iff.1 h) v (hf.subset hv)
    obtain ⟨r, hr, hdr, her⟩ := readRun_of_elements hm hs hn [] hx
    obtain ⟨d', hd'⟩ := readRaw_of_lt (hm.read r) (her.trans he) (hdr ▸ hds)
    refine ⟨d', ?_⟩
    rw [hr, readRun]
    split
    case h_1 h => rw [hd'] at h; cases h
    case h_2 h => rw [hd'] at h; cases h; rfl
  case isFalse h =>
    have hc : ¬c.Delimited := (h <| hm.delimited_iff.2 ·)
    have hlt : front.length < values.length := by
      rw [if_neg hc, hx, List.length_append, Config.length_elements] at hl
      by_contra hge
      have := Nat.mul_le_mul_right c.bits (Nat.le_of_not_lt hge)
      simp at hl
      omega
    obtain ⟨k, hk⟩ := Nat.exists_eq_add_of_lt hlt
    obtain ⟨r, hr, hdr, her⟩ := readRow_of_elements hm hs (k + 1) [] hx
    obtain ⟨d', hd'⟩ := readRaw_of_lt (hm.read r) (her.trans he) (hdr ▸ hds)
    refine ⟨d', ?_⟩
    rw [hm.sequenceLength, ← ha.length hc, hk, Nat.add_assoc, hr, readRow, hd']

theorem next_admitted (hm : d.Matches c) (hn : d.remaining ≠ 0) (ha : c.Admits values)
    (hd : d.reader.digits = c.sequence values ++ ds) :
    ∃ r, d.next = (.ok (some values), { d with reader := r, remaining := d.remaining - 1 }) ∧
      r.digits = ds ∧ r.ending = d.reader.ending := by
  have ⟨r, hr, hds, he⟩ := readSequence_admitted hm ha hd
  exact ⟨r, by rw [next, if_neg hn, hr], hds, he⟩

theorem readAll_admitted {sequences : List (List UInt64)} (hm : d.Matches c)
    (ha : ∀ s ∈ sequences, c.Admits s) (hn : d.remaining = sequences.length)
    (past : List (List UInt64)) (hd : d.reader.digits = sequences.flatMap c.sequence ++ ds) :
    ∃ d', d.readAll past = (.ok (past.reverse ++ sequences), d') ∧ d'.remaining = 0 := by
  induction sequences generalizing d past
  case nil          =>
    refine ⟨d, ?_, hn⟩
    have h : d.next = (.ok none, d) := if_pos hn
    rw [readAll]
    split
    case h_1 hx => rw [h] at hx; cases hx
    case h_2 hx => rw [h] at hx; cases hx; rw [List.append_nil]
    case h_3 hx => rw [h] at hx; cases hx
  case cons s ss hi =>
    obtain ⟨hs, hss⟩ := List.forall_mem_cons.1 ha
    rw [List.flatMap_cons, List.append_assoc] at hd
    obtain ⟨r, h, hds, _⟩ := next_admitted hm (by simp [hn]) hs hd
    obtain ⟨d', hd', hn'⟩ := hi (d := { d with reader := r, remaining := d.remaining - 1 })
      ⟨hm.bits, hm.sequenceLength, hm.containsZero⟩ hss (by simp [hn]) (s :: past) hds
    refine ⟨d', ?_, hn'⟩
    rw [readAll]
    split
    case h_1 hx =>
      rw [h] at hx
      cases hx
      rw [hd', List.reverse_cons, List.append_assoc]
      rfl
    case h_2 hx => rw [h] at hx; cases hx
    case h_3 hx => rw [h] at hx; cases hx

end BitPacking.Batch.Decoder
