import BitPacking.Proofs.Bits.Reader
import BitPacking.Proofs.Header
import BitPacking.Proofs.Stream.Layout
import BitPacking.Stream.Decoder

namespace BitPacking.Stream

theorem Decoded.mk_congr {values values' : List UInt64} {k k' : Nat} (failure : Option Error)
    (hv : values = values') (hk : k = k') : ({ values, failure, delivered := ⟨k⟩ } : Decoded) =
      { values := values', failure, delivered := ⟨k'⟩ } := by
  subst hv hk
  rfl

namespace Decoder

structure Matches (d : Decoder) (c : Config) : Prop where
  bits         : d.header.bits.toNat = c.bits
  containsZero : d.containsZero = c.containsZero

variable {d : Decoder} {c : Config} {value : UInt64} {values : List UInt64} {ds : List Bool}

theorem ofSource_ok {source : Source}
    (hs : Bytes.digits source.supplied = Bits.digits 8 c.bits ++ ds) :
    ∃ d s, ofSource source c.containsZero = (.ok d, s) ∧ d.Matches c ∧ d.reader.digits = ds ∧
      d.reader.ending = source.ending := by
  let header : Header := ⟨.ofNat c.bits⟩
  have hb : Bytes.digits header.encode = Bits.digits 8 c.bits := by
    rw [Header.encode, Bytes.digits_cons, Bytes.digits_nil, List.append_nil, Bytes.digits_ofNat]
  obtain ⟨body, hbody, hds⟩ := Bytes.exists_append_of_digits_eq (hb ▸ hs)
  obtain ⟨r, hr, hd, he⟩ := Bits.Reader.readBytes_ofSource hbody
  have hw : IsValidWidth header.bits.toNat := by
    rw [c.toNat_ofNat_bits]
    exact c.isValidWidth_bits
  have hh := Header.decode_encode hw
  refine ⟨⟨r, header, hw, c.containsZero⟩, r.source, ?_, ⟨c.toNat_ofNat_bits, rfl⟩, hd.trans hds, he⟩
  have hl : header.encode.length = Header.size := rfl
  rw [hl] at hr
  simp only [ofSource, hr]
  split
  case h_1 h => simp [hr, hh] at h
  case h_2 h =>
    simp only [hr, hh, Except.ok.injEq] at h
    cases h
    rfl

theorem ofSource_nil {source : Source} (hs : source.supplied = []) (he : source.ending = .ok ())
    (containsZero : Bool) : ∃ s, ofSource source containsZero = (.error .truncatedInput, s) := by
  have hr := Bits.Reader.readBytes_of_lt (r := .ofSource source) (n := Header.size)
    (by rw [Bits.Reader.bytes_ofSource, hs]; exact Nat.one_pos)
  have he' : (Bits.Reader.ofSource source).ending = .ok () := he
  rw [Bits.Reader.bytes_ofSource, hs, he'] at hr
  have ⟨r, hr⟩ : ∃ r, (Bits.Reader.ofSource source).readBytes Header.size = (([], none), r) :=
    ⟨_, Prod.ext hr rfl⟩
  refine ⟨r.source, ?_⟩
  simp only [ofSource, hr]
  split
  case h_1 h => rw [hr] at h; cases h; rfl
  case h_2 h => rw [hr] at h; cases h

theorem readOn_of_value {raw : UInt64} {r : Bits.Reader} (past : List UInt64) (k : Nat)
    (h : d.reader.readBits d.header.bits.toNat = (.ok (some raw), r)) (hr : raw ≠ delimiter) :
    d.readOn past k = { d with reader := r }.readOn (unmap d.containsZero raw :: past) (k + 1) := by
  rw [readOn]
  split
  case h_1 hx    => rw [h] at hx; cases hx; rw [if_neg hr]
  case h_2 hn hx => rw [h] at hx; cases hx; exact absurd rfl (hn _)

theorem readOn_of_delimiter {r : Bits.Reader} (past : List UInt64) (k : Nat)
    (h : d.reader.readBits d.header.bits.toNat = (.ok (some delimiter), r)) :
    d.readOn past k = ⟨d, past, k, .ok (some delimiter), r.source⟩ := by
  rw [readOn]
  split
  case h_1 hx    => rw [h] at hx; cases hx; rw [if_pos rfl]
  case h_2 hn hx => rw [h] at hx; cases hx; exact absurd rfl (hn _)

theorem Matches.read (hm : d.Matches c) (r : Bits.Reader) :
    ({ d with reader := r } : Decoder).Matches c :=
  ⟨hm.bits, hm.containsZero⟩

-- None of the values reads as the end mark, so that decoding goes on with what follows them.
theorem readOn_elements (hm : d.Matches c) (ha : ∀ v ∈ values, c.Accepts v) (past : List UInt64)
    (k : Nat) (hd : d.reader.digits = values.flatMap c.element ++ ds) :
    ∃ r, d.readOn past k =
        { d with reader := r }.readOn (values.reverse ++ past) (k + values.length) ∧
      r.digits = ds ∧ r.ending = d.reader.ending ∧
      (d.reader.source.Undecided → r.source.Undecided ∧ r.blockSize = d.reader.blockSize) := by
  induction values generalizing d past k
  case nil          => exact ⟨d.reader, rfl, hd, rfl, fun hu => ⟨hu, rfl⟩⟩
  case cons v vs hi =>
    have ⟨hv, hvs⟩ := List.forall_mem_cons.1 ha
    rw [List.flatMap_cons, List.append_assoc] at hd
    have hl : c.bits ≤ d.reader.digits.length := by
      rw [hd, List.length_append, c.length_element]
      exact Nat.le_add_right ..
    have ⟨r₁, hr₁, hd₁, he₁⟩ := Bits.Reader.readBits_element hd hv.stored_lt
    have hu : unmap d.containsZero (c.stored v) = v := by
      rw [hm.containsZero]
      exact hv.unmap_stored
    have ⟨r, hr, hds, he, hun⟩ := hi (hm.read r₁) hvs (v :: past) (k + 1) hd₁
    refine ⟨r, ?_, hds, he.trans he₁, ?_⟩
    · rw [readOn_of_value past k (hm.bits ▸ hr₁) hv.no_delimiter, hu, hr, List.reverse_cons,
        List.append_assoc, List.length_cons, Nat.add_assoc, Nat.add_comm 1]
      rfl
    · intro hu
      have ⟨hu₁, hz₁⟩ := Bits.Reader.readBits_undecided hu hl hr₁
      have ⟨hu', hz'⟩ := hun hu₁
      exact ⟨hu', hz'.trans hz₁⟩

theorem decoded_of_endMark (hm : d.Matches c) (past : List UInt64) (k : Nat)
    (hd : d.reader.digits = c.endMark ++ ds) :
    (d.readOn past k).decoded = { values := past.reverse, failure := none, delivered := ⟨k⟩ } := by
  have ⟨r, hr, _⟩ := Bits.Reader.readBits_element hd (Nat.two_pow_pos c.bits)
  rw [readOn_of_delimiter past k (hm.bits ▸ hr)]
  rfl

theorem decoded_of_lt (hm : d.Matches c) (past : List UInt64) (k : Nat)
    (he : d.reader.ending = .ok ()) (hd : d.reader.digits.length < c.bits) :
    (d.readOn past k).decoded =
      { values := past.reverse, failure := some .missingEndMarker, delivered := ⟨k⟩ } := by
  have hr := Bits.Reader.readBits_of_lt (hm.bits ▸ hd)
  rw [he] at hr
  rw [readOn]
  split
  case h_1 hx => rw [hx] at hr; cases hr
  case h_2 hx => rw [hx] at hr; cases hr; rfl

end Decoder

variable {c : Config} {values : List UInt64} {bytes : Bytes} {source : Source}

theorem decode_whole (hw : Whole c values bytes) (ha : ∀ v ∈ values, c.Accepts v)
    (hs : bytes <+: source.supplied) :
    ∃ d s, Decoder.ofSource source c.containsZero = (.ok d, s) ∧ d.decode.1 = ⟨values, none⟩ := by
  obtain ⟨k, _, hb⟩ := hw
  obtain ⟨more, hmore⟩ := hs
  have hd := congrArg Bytes.digits hmore
  simp only [Bytes.digits_append, hb, opening, List.append_assoc] at hd
  obtain ⟨d, s, hd, hm, hds, _⟩ := Decoder.ofSource_ok hd.symm
  obtain ⟨r, hr, hds', _⟩ := Decoder.readOn_elements hm ha [] 0 hds
  refine ⟨d, s, hd, ?_⟩
  rw [Decoder.decode, hr, Decoder.decoded_of_endMark (hm.read r) _ _ hds']
  exact Decoded.mk_congr none (by simp) (Nat.zero_add _)

theorem decode_cut (hc : Cut c values source.supplied) (ha : ∀ v ∈ values, c.Accepts v)
    (he : source.ending = .ok ()) :
    (decode source c.containsZero).1 = ⟨values, some .missingEndMarker⟩ := by
  obtain ⟨ds, hl, hb⟩ := hc
  rw [opening, List.append_assoc] at hb
  obtain ⟨d, s, hd, hm, hds, he'⟩ := Decoder.ofSource_ok hb
  obtain ⟨r, hr, hds', her, _⟩ := Decoder.readOn_elements hm ha [] 0 hds
  simp only [decode, hd]
  rw [Decoder.decode, hr,
    Decoder.decoded_of_lt (hm.read r) _ _ (her.trans (he'.trans he)) (hds' ▸ hl)]
  exact Decoded.mk_congr _ (by simp) (Nat.zero_add _)

theorem decode_nil (hs : source.supplied = []) (he : source.ending = .ok ())
    (containsZero : Bool) : (decode source containsZero).1 = ⟨[], some .truncatedInput⟩ := by
  have ⟨s, h⟩ := Decoder.ofSource_nil hs he containsZero
  rw [decode, h]

theorem decode_unfinished (hu : Unfinished c values source.supplied)
    (ha : ∀ v ∈ values, c.Accepts v) (he : source.ending = .ok ()) :
    ∃ front, front <+: values ∧ (decode source c.containsZero).1 =
      ⟨front, some (if source.supplied = [] then .truncatedInput else .missingEndMarker)⟩ := by
  cases hu
  case inl hs =>
    refine ⟨[], List.nil_prefix, ?_⟩
    rw [decode_nil hs he, if_pos hs]
  case inr hu =>
    have ⟨front, hf, hc⟩ := hu
    refine ⟨front, hf, ?_⟩
    rw [decode_cut hc (fun v hv => ha v (hf.subset hv)) he, if_neg hc.ne_nil]

end BitPacking.Stream
