import BitPacking.Proofs.Spelling
import BitPacking.Proofs.Stream.Decoder

namespace BitPacking.Stream

theorem Header.take_of_decode {header : Header} {bytes : Bytes}
    (h : decode (bytes.take size) = .ok header) : bytes.take size = header.encode := by
  match bytes, h with
  | b :: _, h =>
    have h : (if IsValidWidth b.toNat then .ok ⟨b⟩ else .error (Error.invalidHeader b)) =
        Except.ok header := h
    split at h
    case isTrue  => cases h; rfl
    case isFalse => cases h

namespace Decoder

variable {d : Decoder} {source : Source} {header : Header} {cause : Error}

theorem ofSource_of_decode (h : Header.decode (source.supplied.take Header.size) = .ok header)
    (containsZero : Bool) :
    ∃ d s, ofSource source containsZero = (.ok d, s) ∧ d.header = header ∧
      d.containsZero = containsZero ∧
      d.reader.digits = Bytes.digits (source.supplied.drop Header.size) ∧
      d.reader.ending = source.ending := by
  have hs : source.supplied =
      source.supplied.take Header.size ++ source.supplied.drop Header.size :=
    (List.take_append_drop ..).symm
  have hl : (source.supplied.take Header.size).length = Header.size := by
    match source.supplied, h with
    | b :: _, _ => rfl
  obtain ⟨r, hr, hd, he⟩ := Bits.Reader.readBytes_ofSource hs
  rw [hl] at hr
  refine ⟨⟨r, header, Header.isValidWidth_of_decode h, containsZero⟩, r.source, ?_, rfl, rfl, hd,
    he⟩
  simp only [ofSource, hr]
  split
  case h_1 hx => rw [hr, h] at hx; cases hx
  case h_2 hx =>
    simp only [hr, h, Except.ok.injEq] at hx
    cases hx
    rfl

theorem ofSource_of_decode_error
    (h : Header.decode (source.supplied.take Header.size) = .error cause) (containsZero : Bool) :
    (ofSource source containsZero).1 = .error (cause.atEnding source.ending) := by
  rcases hs : source.supplied with _ | ⟨b, bs⟩
  case nil  =>
    have hc : cause = .truncatedInput := by rw [hs] at h; cases h; rfl
    obtain ⟨_, r, hr, hf⟩ := Bits.Reader.readBytes_ofSource_of_lt (n := Header.size)
      (by rw [hs]; exact Nat.one_pos)
    rw [hs] at hr
    rcases hf with ⟨rfl, he⟩ | ⟨e, rfl, he⟩
    · rw [he, hc]
      simp only [ofSource, hr]
      split
      case h_1 hx => rw [hr] at hx; cases hx; rfl
      case h_2 hx => rw [hr] at hx; cases hx
    · rw [he, hc]
      simp only [ofSource, hr]
      rfl
  case cons =>
    have hb : source.supplied = [b] ++ bs := hs
    obtain ⟨r, hr, -⟩ := Bits.Reader.readBytes_ofSource hb
    have hr : (Bits.Reader.ofSource source).readBytes Header.size = (([b], none), r) := hr
    have hh : Header.decode [b] = .error cause := by rwa [hs] at h
    have he : cause = .invalidHeader b := by
      rw [Header.decode] at hh
      split at hh
      case isTrue  => cases hh
      case isFalse => cases hh; rfl
    simp only [ofSource, hr]
    split
    case h_1 hx => rw [hr, hh] at hx; cases hx; rw [he]; rfl
    case h_2 hx => rw [hr, hh] at hx; cases hx

def spelled (d : Decoder) : Spelled UInt64 :=
  .run d.header.bits.toNat d.containsZero d.reader.digits

def shortage (d : Decoder) : Error :=
  Error.missingEndMarker.atEnding d.reader.ending

theorem readOn_eq (d : Decoder) (past : List UInt64) (k : Nat) : (d.readOn past k).decoded = {
    values    := past.reverse ++ d.spelled.values
    failure   := d.spelled.failure d.shortage
    delivered := ⟨k + d.spelled.values.length⟩ } := by
  rw [spelled, shortage]
  generalize hw : d.header.bits.toNat = width, hz : d.containsZero = containsZero,
    hd : d.reader.digits = ds
  fun_induction Spelled.run width containsZero ds generalizing d past k
  case case1 hx                =>
    obtain ⟨r, hr⟩ := Bits.Reader.readBits_of_none (hd ▸ hx)
    rw [readOn]
    split
    case h_1 hx'   =>
      rw [hw, hr] at hx'
      cases he : d.reader.ending <;> rw [he] at hx' <;> cases hx'
    case h_2 _ hx' =>
      rw [hw, hr] at hx'
      cases hx'
      rw [List.append_nil]
      cases d.reader.ending <;> rfl
  case case2 hx                =>
    obtain ⟨r, hr, -⟩ := Bits.Reader.readBits_of_element? (hd ▸ hx)
    rw [readOn_of_delimiter past k (hw ▸ hr)]
    exact Decoded.mk_congr none (List.append_nil _).symm rfl
  case case3 raw rest hx hn hi =>
    obtain ⟨r, hr, hds, he⟩ := Bits.Reader.readBits_of_element? (hd ▸ hx)
    rw [readOn_of_value past k (hw ▸ hr) hn, hi { d with reader := r } _ _ hw hz hds]
    simp only [he, Spelled.failure_cons]
    refine Decoded.mk_congr _ ?_ ?_
    · simp only [hz, List.reverse_cons, List.append_assoc, List.singleton_append,
        Spelled.values_cons]
    · rw [Spelled.values_cons, List.length_cons, Nat.add_assoc, Nat.add_comm 1]

theorem decode_eq (d : Decoder) :
    d.decode.1 = ⟨d.spelled.values, d.spelled.failure d.shortage⟩ :=
  (d.readOn_eq [] 0).trans (Decoded.mk_congr _ rfl (Nat.zero_add _))

-- The counter has come to the number of the values, also where decoding has failed.
theorem delivered_decode (d : Decoder) :
    d.decode.1.delivered.count = d.decode.1.values.length := by
  rw [d.decode_eq]
  rfl

def spell (bytes : Bytes) (ending : Except IoError Unit) (containsZero : Bool) :
    Except Error (Header × Decoded) :=
  match Header.decode (bytes.take Header.size) with
  | .error e   => .error (e.atEnding ending)
  | .ok header =>
    let spelled := Spelled.run header.bits.toNat containsZero
      (Bytes.digits (bytes.drop Header.size))
    .ok (header, ⟨spelled.values, spelled.failure (Error.missingEndMarker.atEnding ending)⟩)

theorem map_decode_ofSource (source : Source) (containsZero : Bool) :
    (ofSource source containsZero).1.map (fun d => (d.header, d.decode.1)) =
      spell source.supplied source.ending containsZero := by
  rw [spell]
  split
  case h_1 e h      => rw [ofSource_of_decode_error h]; rfl
  case h_2 header h =>
    have ⟨d, s, hs, hh, hz, hd, he⟩ := ofSource_of_decode h containsZero
    rw [hs, ← hh, ← hz, ← hd, ← he]
    exact congrArg (fun x => Except.ok (d.header, x)) d.decode_eq

end Decoder

end BitPacking.Stream
