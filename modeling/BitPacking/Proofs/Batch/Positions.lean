import BitPacking.Proofs.Batch.Spelling
import BitPacking.Proofs.Rows
import Mathlib.Data.List.Flatten

namespace BitPacking

-- The elements of `width` bits in a payload, by where they are in the number that it spells.
def Bytes.elements (width : Nat) (payload : Bytes) : List UInt64 :=
  (List.range (8 * payload.length / width)).map fun i =>
    .ofNat (ofBigEndian payload / 2 ^ (8 * payload.length - (i + 1) * width) % 2 ^ width)

namespace Bits

def elements (width : Nat) (ds : List Bool) : List UInt64 :=
  (rows width ds).map fun row => .ofNat (number row)

end Bits

namespace Bytes

variable {width : Nat} {payload : Bytes}

@[simp]
theorem length_elements (width : Nat) (payload : Bytes) :
    (elements width payload).length = 8 * payload.length / width := by
  simp [elements]

theorem number_take_drop {ds : List Bool} {j : Nat} (h : j + width ≤ ds.length) :
    Bits.number ((ds.drop j).take width) =
      Bits.number ds / 2 ^ (ds.length - (j + width)) % 2 ^ width := by
  have hd : ds = ds.take j ++ ((ds.drop j).take width ++ ds.drop (j + width)) := by
    rw [← List.drop_drop, List.take_append_drop, List.take_append_drop]
  have hl : ((ds.drop j).take width).length = width :=
    List.length_take_of_le (by rw [List.length_drop]; omega)
  have hlt := Bits.number_lt ((ds.drop j).take width)
  have hr := Bits.number_lt (ds.drop (j + width))
  rw [hl] at hlt
  rw [List.length_drop] at hr
  have hn : Bits.number ds = (Bits.number (ds.take j) * 2 ^ width +
      Bits.number ((ds.drop j).take width)) * 2 ^ (ds.length - (j + width)) +
        Bits.number (ds.drop (j + width)) := by
    conv_lhs => rw [hd]
    rw [← List.append_assoc, Bits.number_append, Bits.number_append, hl, List.length_drop]
  rw [hn, Nat.mul_comm, Nat.mul_add_div (Nat.two_pow_pos _), Nat.div_eq_of_lt hr, Nat.add_zero,
    Nat.mul_add_mod_of_lt hlt]

theorem elements_digits (width : Nat) (payload : Bytes) :
    Bits.elements width (digits payload) = elements width payload := by
  rw [Bits.elements, rows, elements, length_digits, List.map_map]
  refine List.map_congr_left fun i hi => congrArg UInt64.ofNat ?_
  have hle : (i + 1) * width ≤ 8 * payload.length :=
    (Nat.mul_le_mul_right width (List.mem_range.1 hi)).trans (Nat.div_mul_le_self ..)
  rw [Nat.succ_mul] at hle
  rw [number_take_drop (by rwa [length_digits]), number_digits, length_digits, ← Nat.succ_mul]

end Bytes

-- The sequences that elements make up: rows of one length, or what stands in front of each
-- delimiter.
def sequencesOf (n : Nat) (elements : List UInt64) : List (List UInt64) :=
  if n = 0 then (elements.splitOn delimiter).dropLast else rows n elements

-- Whether elements make up as many sequences.
def Suffice (n count : Nat) (elements : List UInt64) : Prop :=
  if n = 0 then count ≤ elements.count delimiter else count * n ≤ elements.length

theorem length_splitOn (a : UInt64) (as : List UInt64) :
    (as.splitOn a).length = as.count a + 1 := by
  induction as
  case nil          => rfl
  case cons b bs hi =>
    rw [List.splitOn_cons_eq_if_modifyHead, List.count_cons]
    split
    case isTrue  => rw [List.length_cons, hi]
    case isFalse => rw [List.length_modifyHead, hi]

theorem length_flatten_splitOn_le (a : UInt64) (as : List UInt64) :
    (as.splitOn a).flatten.length ≤ as.length := by
  induction as
  case nil          => rfl
  case cons b bs hi =>
    rw [List.splitOn_cons_eq_if_modifyHead]
    split
    case isTrue  => exact hi.trans (Nat.le_succ _)
    case isFalse =>
      obtain ⟨x, xs, hx⟩ := List.exists_cons_of_ne_nil (List.splitOn_ne_nil a bs)
      rw [hx] at hi ⊢
      simpa [Nat.add_right_comm] using hi

theorem suffice_iff {n count : Nat} {elements : List UInt64} :
    Suffice n count elements ↔ count ≤ (sequencesOf n elements).length := by
  rw [Suffice, sequencesOf]
  split
  case isTrue     => rw [List.length_dropLast, length_splitOn, Nat.add_sub_cancel]
  case isFalse hn => rw [length_rows, Nat.le_div_iff_mul_le (Nat.pos_of_ne_zero hn)]

instance (n count : Nat) (elements : List UInt64) : Decidable (Suffice n count elements) :=
  decidable_of_iff _ suffice_iff.symm

theorem length_flatten_sequencesOf_le (n : Nat) (elements : List UInt64) :
    (sequencesOf n elements).flatten.length ≤ elements.length := by
  rw [sequencesOf]
  split
  case isFalse => exact length_flatten_rows_le n elements
  case isTrue  =>
    have hd := List.dropLast_concat_getLast (List.splitOn_ne_nil delimiter elements)
    have hl := congrArg (fun xs => (List.flatten xs).length) hd
    have hs : (elements.splitOn delimiter).flatten.length ≤ elements.length :=
      length_flatten_splitOn_le delimiter elements
    simp only [List.flatten_append, List.length_append] at hl
    omega

namespace Spelled

variable {α : Type} {item? : List Bool → Option (α × List Bool)} {all : List Bool → List α}
variable {width n : Nat} {containsZero : Bool} {ds rest : List Bool} {values : List UInt64}

-- All items that can be taken off digits, one after the other.
structure Lists (item? : List Bool → Option (α × List Bool)) (all : List Bool → List α) : Prop where
  last  : ∀ {ds}, item? ds = none → all ds = []
  front : ∀ {ds a rest}, item? ds = some (a, rest) → all ds = a :: all rest

theorem Lists.times (h : Lists item? all) (n : Nat) (ds : List Bool) :
    (times item? n ds).values = (all ds).take n ∧
      match (times item? n ds).rest with
      | none      => (all ds).length < n
      | some rest => n ≤ (all ds).length ∧ all rest = (all ds).drop n := by
  induction n generalizing ds
  case zero      => exact ⟨rfl, Nat.zero_le _, rfl⟩
  case succ n hi =>
    rw [Spelled.times]
    split
    case h_1 hx        =>
      rw [h.last hx]
      exact ⟨rfl, Nat.succ_pos n⟩
    case h_2 a rest hx =>
      obtain ⟨hv, hr⟩ := hi rest
      rw [h.front hx, values_cons, hv]
      refine ⟨rfl, ?_⟩
      rw [Spelled.cons]
      split at hr
      case h_1 hx => simp only [hx, List.length_cons]; omega
      case h_2 hx => simp only [hx, List.length_cons, List.drop_succ_cons]; exact ⟨by omega, hr.2⟩

theorem lists_value (hw : 0 < width) (containsZero : Bool) :
    Lists (value? width containsZero) fun ds =>
      (Bits.elements width ds).map (unmap containsZero) where
  last h  := by
    rw [Bits.elements, rows_of_lt (Bits.element?_eq_none_iff.1 (value?_eq_none h))]
    rfl
  front h := by
    obtain ⟨raw, hr, rfl⟩ := value?_eq_some h
    obtain ⟨hl, rfl, rfl⟩ := Bits.element?_eq_some hr
    rw [Bits.elements, rows_of_le hw hl]
    rfl

theorem Lists.rows (h : Lists item? all) (hn : 0 < n) :
    Lists (fun ds => (Spelled.times item? n ds).whole?) fun ds => BitPacking.rows n (all ds) where
  last {ds} hx  := by
    obtain ⟨-, hr⟩ := h.times n ds
    rw [whole?_eq_none hx] at hr
    exact rows_of_lt hr
  front {ds _ _} hx := by
    obtain ⟨hv, hr⟩ := h.times n ds
    rw [whole?_eq_some hx] at hv hr
    rw [rows_of_le hn hr.1, ← hr.2, ← hv]

theorem run_eq (hw : 0 < width) (h : run width containsZero ds = ⟨values, some rest⟩) :
    ∃ raws, Bits.elements width ds = raws ++ delimiter :: Bits.elements width rest ∧
      delimiter ∉ raws ∧ values = raws.map (unmap containsZero) := by
  fun_induction run width containsZero ds generalizing values
  case case1                => cases h
  case case2 hx             =>
    cases h
    obtain ⟨hl, hd, rfl⟩ := Bits.element?_eq_some hx
    refine ⟨[], ?_, List.not_mem_nil, rfl⟩
    rw [hd, Bits.elements, rows_of_le hw hl]
    rfl
  case case3 raw _ hx hr hi =>
    obtain ⟨values, rfl, hs⟩ := cons_eq_some h
    obtain ⟨hl, rfl, rfl⟩ := Bits.element?_eq_some hx
    obtain ⟨raws, he, hn, rfl⟩ := hi hs
    refine ⟨_ :: raws, ?_, List.not_mem_cons_of_ne_of_not_mem (Ne.symm hr) hn, rfl⟩
    rw [List.cons_append, ← he, Bits.elements, rows_of_le hw hl]
    rfl

theorem run_eq_none (hw : 0 < width) (h : (run width containsZero ds).rest = none) :
    delimiter ∉ Bits.elements width ds := by
  fun_induction run width containsZero ds
  case case1 hx             =>
    rw [Bits.elements, rows_of_lt (Bits.element?_eq_none_iff.1 hx)]
    exact List.not_mem_nil
  case case2                => cases h
  case case3 raw _ hx hr hi =>
    obtain ⟨hl, rfl, rfl⟩ := Bits.element?_eq_some hx
    rw [Bits.elements, rows_of_le hw hl]
    exact List.not_mem_cons_of_ne_of_not_mem (Ne.symm hr) (hi h)

theorem lists_run (hw : 0 < width) (containsZero : Bool) :
    Lists (fun ds => (run width containsZero ds).whole?) fun ds =>
      ((Bits.elements width ds).splitOn delimiter).dropLast.map (·.map (unmap containsZero)) where
  last hx  := by
    rw [List.splitOn_eq_singleton (run_eq_none hw (whole?_eq_none hx))]
    rfl
  front hx := by
    obtain ⟨raws, he, hn, rfl⟩ := run_eq hw (whole?_eq_some hx)
    rw [he, List.splitOn_append_cons_self_of_not_mem hn,
      List.dropLast_cons_of_ne_nil (List.splitOn_ne_nil _ _), List.map_cons]

def sequences (header : Batch.Header) (containsZero : Bool) (ds : List Bool) :
    List (List UInt64) :=
  (sequencesOf header.sequenceLength.toNat (Bits.elements header.bits.toNat ds)).map
    (·.map (unmap containsZero))

theorem lists_sequence {header : Batch.Header} (hw : 0 < header.bits.toNat) (containsZero : Bool) :
    Lists (sequence? header containsZero) (sequences header containsZero) := by
  have hz : header.Delimited ↔ header.sequenceLength.toNat = 0 := by
    rw [Batch.Header.Delimited, ← UInt32.toNat_inj]
    rfl
  unfold sequence? sequences sequencesOf
  by_cases hd : header.Delimited
  case pos =>
    simp only [if_pos hd, if_pos (hz.1 hd)]
    exact lists_run hw containsZero
  case neg =>
    have hn : header.sequenceLength.toNat ≠ 0 := fun hn => hd (hz.2 hn)
    simp only [if_neg hd, if_neg hn, map_rows]
    exact (lists_value hw containsZero).rows (Nat.pos_of_ne_zero hn)

@[simp]
theorem sequences_nil {header : Batch.Header} (hw : 0 < header.bits.toNat) (containsZero : Bool) :
    sequences header containsZero [] = [] := by
  rw [sequences, Bits.elements, rows_of_lt hw, sequencesOf]
  split
  case isTrue  => rfl
  case isFalse => simp [rows]

end Spelled

namespace Bits.Reader

variable {r : Reader}

theorem readBytes_lasting (hl : r.source.Lasting) (n : Nat) :
    (r.readBytes n).2.source.Lasting := by
  fun_induction readBytes r n
  case case1                        => exact hl
  case case2 hb _ _ _ hr hi         =>
    rw [hr] at hi
    exact hi (nextByte_lasting hl hb).left
  case case3 hb                     => exact (nextByte_lasting hl hb).left
  case case4 hb                     => exact (nextByte_lasting hl hb).left

end Bits.Reader

namespace Batch

namespace Header

-- The fields that are more than one byte, by where they stand.
def lengthAt (bytes : Bytes) : Nat :=
  Bytes.ofBigEndian ((bytes.drop 1).take 4)

def countAt (bytes : Bytes) : Nat :=
  Bytes.ofBigEndian ((bytes.drop countOffset).take 4)

theorem decode_of_le {bytes : Bytes} (h : size ≤ bytes.length) :
    ∃ header : Header, decode (bytes.take size) = header.validate.map (fun _ => header) ∧
      bytes[0]? = some header.bits ∧ header.sequenceLength.toNat = lengthAt bytes ∧
      header.sequenceCount.toNat = countAt bytes := by
  match bytes, h with
  | b :: l₃ :: l₂ :: l₁ :: l₀ :: c₃ :: c₂ :: c₁ :: c₀ :: body, _ =>
    refine ⟨⟨b, .ofNat (Bytes.ofBigEndian [l₃, l₂, l₁, l₀]),
      .ofNat (Bytes.ofBigEndian [c₃, c₂, c₁, c₀])⟩, ?_, rfl,
      toNat_ofNat_ofBigEndian rfl,
      toNat_ofNat_ofBigEndian rfl⟩
    simp only [size, List.take_succ_cons, List.take_zero, decode, bind, Except.bind]
    split
    case h_1 hv => simp only [hv]; rfl
    case h_2 hv => simp only [hv]; rfl

end Header

namespace Decoder

variable {d : Decoder} {α : Type}

-- The sequences that `k` calls of `next` give, where one that fails gives none.
def given (d : Decoder) : (k : Nat) → List (List UInt64)
  | 0 => []
  | k + 1 =>
    match d.next with
    | (.ok (some values), d) => values :: given d k
    | (_, d)                 => given d k

theorem width_pos (d : Decoder) : 0 < d.header.bits.toNat :=
  d.isValidWidth.left

theorem values_spelled (d : Decoder) :
    d.spelled.values =
      (Spelled.sequences d.header d.containsZero d.reader.digits).take d.remaining :=
  ((Spelled.lists_sequence d.width_pos d.containsZero).times d.remaining d.reader.digits).left

-- The outcome of a call that leaves nothing to be read where it fails.
structure Exhausts (x : Except Error α × Decoder) : Prop where
  lasting : x.2.reader.source.Lasting
  digits  : ∀ {e}, x.1 = .error e → x.2.reader.digits = []

theorem exhausts_readRaw (hl : d.reader.source.Lasting) : Exhausts d.readRaw := by
  have hr := Bits.Reader.readBits_lasting hl d.header.bits.toNat
  have hs : (d.readRaw).2.reader = (d.reader.readBits d.header.bits.toNat).2 := by
    rw [readRaw]
    split
    all_goals next hx => rw [hx]
  refine ⟨hs ▸ hr.1, fun he => hs ▸ hr.2.2 ?_⟩
  by_contra hn
  have hx : Bits.element? d.header.bits.toNat d.reader.digits ≠ none := fun hx =>
    hn (Bits.element?_eq_none_iff.1 hx)
  obtain ⟨⟨raw, rest⟩, hx⟩ := Option.ne_none_iff_exists'.1 hx
  obtain ⟨d', hd, _⟩ := readRaw_of_element? hx
  rw [hd] at he
  cases he

theorem exhausts_readRun (hl : d.reader.source.Lasting) (past : List UInt64) :
    Exhausts (d.readRun past) := by
  fun_induction readRun d past
  case case1 h      => exact ⟨(h ▸ exhausts_readRaw hl).lasting, fun he => by cases he⟩
  case case2 h _ hi => exact hi (h ▸ exhausts_readRaw hl).lasting
  case case3 h      =>
    have hx := exhausts_readRaw hl
    rw [h] at hx
    exact ⟨hx.lasting, fun _ => hx.digits rfl⟩

theorem exhausts_readRow (hl : d.reader.source.Lasting) (n : Nat) (past : List UInt64) :
    Exhausts (d.readRow n past) := by
  fun_induction readRow d n past
  case case1      => exact ⟨hl, fun he => by cases he⟩
  case case2 h hi => exact hi (h ▸ exhausts_readRaw hl).lasting
  case case3 h    =>
    have hx := exhausts_readRaw hl
    rw [h] at hx
    exact ⟨hx.lasting, fun _ => hx.digits rfl⟩

theorem exhausts_next (hl : d.reader.source.Lasting) : Exhausts d.next := by
  have hs : Exhausts d.readSequence := by
    rw [readSequence]
    split
    case isTrue  => exact exhausts_readRun hl []
    case isFalse => exact exhausts_readRow hl _ []
  rw [next]
  split
  case isTrue  => exact ⟨hl, fun he => by cases he⟩
  case isFalse =>
    split
    case h_1 hx => exact ⟨(hx ▸ hs).lasting, fun he => by cases he⟩
    case h_2 hx =>
      rw [hx] at hs
      exact ⟨hs.lasting, fun _ => hs.digits rfl⟩

theorem given_eq_take (hl : d.reader.source.Lasting) (k : Nat) :
    d.given k = d.spelled.values.take k := by
  induction k generalizing d
  case zero      => rfl
  case succ k hi =>
    have hx := exhausts_next hl
    rw [given]
    by_cases hn : d.remaining = 0
    case pos =>
      rw [next_of_eq_zero hn]
      simp only [hi hl, spelled_of_eq_zero hn, List.take_nil]
    case neg =>
      rcases hs : Spelled.sequence? d.header d.containsZero d.reader.digits with _ | ⟨values, rest⟩
      case none =>
        obtain ⟨d', hd⟩ := next_of_none hn hs
        rw [hd] at hx ⊢
        simp only [hi hx.lasting, spelled_of_none hn hs, values_spelled, hx.digits rfl,
          Spelled.sequences_nil d'.width_pos, List.take_nil]
      case some =>
        obtain ⟨d', hd, hto⟩ := next_of_sequence? hn hs
        rw [hd] at hx ⊢
        simp only [hi hx.lasting, spelled_of_sequence? hn hs hto, Spelled.values_cons,
          List.take_succ_cons]

theorem lasting_ofSource {source s : Source} {containsZero : Bool} (hl : source.Lasting)
    (h : ofSource source containsZero = (.ok d, s)) : d.reader.source.Lasting := by
  have hr := Bits.Reader.readBytes_lasting (r := .ofSource source) hl Header.size
  simp only [ofSource] at h
  split at h
  case h_1 => cases h
  case h_2 =>
    split at h
    case h_1 => cases h
    case h_2 => cases h; exact hr

-- The values of all sequences that bytes after a header make up.
def complete (width : UInt8) (containsZero : Bool) (bytes : Bytes) : List (List UInt64) :=
  (sequencesOf (Header.lengthAt bytes) (Bytes.elements width.toNat (bytes.drop Header.size))).map
    (·.map (unmap containsZero))

theorem length_flatten_complete_le (width : UInt8) (containsZero : Bool) (bytes : Bytes) :
    (complete width containsZero bytes).flatten.length ≤
      8 * (bytes.length - Header.size) / width.toNat := by
  rw [complete, ← List.map_flatten, List.length_map, ← List.length_drop,
    ← Bytes.length_elements width.toNat]
  exact length_flatten_sequencesOf_le ..

-- What is in front of the elements decides whether there is a decoder, and which.
theorem ofSource_of_not_isValidWidth {bytes : Bytes} {width : UInt8}
    (hl : Header.size ≤ bytes.length) (hb : bytes[0]? = some width)
    (hw : ¬IsValidWidth width.toNat) (containsZero : Bool) :
    (ofSource (.ofBytes bytes) containsZero).1 = .error (.invalidHeader width) := by
  obtain ⟨header, hd, hb', -⟩ := Header.decode_of_le hl
  cases hb.symm.trans hb'
  rw [Header.validate, if_neg hw, ← Source.supplied_ofBytes bytes] at hd
  have h := ofSource_of_decode_error hd containsZero
  rwa [Source.ending_ofBytes, Error.atEnding_ok] at h

theorem ofSource_of_isValidWidth {bytes : Bytes} {width : UInt8}
    (hl : Header.size ≤ bytes.length) (hb : bytes[0]? = some width)
    (hw : IsValidWidth width.toNat) (containsZero : Bool) :
    ∃ d s, ofSource (.ofBytes bytes) containsZero = (.ok d, s) ∧
      Spelled.sequences d.header d.containsZero d.reader.digits =
        complete width containsZero bytes ∧
      d.remaining = Header.countAt bytes ∧ d.shortage = .truncatedInput ∧
      d.reader.source.Lasting := by
  obtain ⟨header, hd, hb', hn, hc⟩ := Header.decode_of_le hl
  cases hb.symm.trans hb'
  rw [Header.validate, if_pos hw, ← Source.supplied_ofBytes bytes] at hd
  obtain ⟨d, s, hs, rfl, rfl, hr, hds, he⟩ := ofSource_of_decode hd containsZero
  rw [Source.supplied_ofBytes] at hds
  rw [Source.ending_ofBytes] at he
  refine ⟨d, s, hs, ?_, hr.trans hc, ?_, lasting_ofSource (Source.lasting_ofBytes bytes) hs⟩
  · rw [Spelled.sequences, complete, hn, hds, Bytes.elements_digits]
  · rw [shortage, he, Error.atEnding_ok]

theorem ofSource_eq_truncatedInput_iff {bytes : Bytes} {containsZero : Bool} :
    (ofSource (.ofBytes bytes) containsZero).1 = .error .truncatedInput ↔
      bytes.length < Header.size := by
  refine ⟨fun h => ?_, fun hl => ofSource_of_lt (by simpa using hl) (by simp) containsZero⟩
  by_contra hl
  have hl := Nat.le_of_not_lt hl
  obtain ⟨header, -, hb, -⟩ := Header.decode_of_le hl
  by_cases hw : IsValidWidth header.bits.toNat
  case pos =>
    obtain ⟨d, s, hs, -⟩ := ofSource_of_isValidWidth hl hb hw containsZero
    rw [hs] at h
    cases h
  case neg =>
    rw [ofSource_of_not_isValidWidth hl hb hw] at h
    cases h

theorem ofSource_eq_invalidHeader_iff {bytes : Bytes} {containsZero : Bool} {width : UInt8} :
    (ofSource (.ofBytes bytes) containsZero).1 = .error (.invalidHeader width) ↔
      Header.size ≤ bytes.length ∧ bytes[0]? = some width ∧ ¬IsValidWidth width.toNat := by
  refine ⟨fun h => ?_, fun ⟨hl, hb, hw⟩ => ofSource_of_not_isValidWidth hl hb hw containsZero⟩
  have hl : Header.size ≤ bytes.length := by
    by_contra hl
    rw [ofSource_eq_truncatedInput_iff.2 (Nat.lt_of_not_le hl)] at h
    cases h
  obtain ⟨header, -, hb, -⟩ := Header.decode_of_le hl
  by_cases hw : IsValidWidth header.bits.toNat
  case pos =>
    obtain ⟨d, s, hs, -⟩ := ofSource_of_isValidWidth hl hb hw containsZero
    rw [hs] at h
    cases h
  case neg =>
    rw [ofSource_of_not_isValidWidth hl hb hw] at h
    cases h
    exact ⟨hl, hb, hw⟩

-- All sequences are read where there are as many as are asked for.
theorem all_of_le {d : Decoder} {all : List (List UInt64)}
    (ha : Spelled.sequences d.header d.containsZero d.reader.digits = all)
    (h : d.remaining ≤ all.length) :
    d.all.1 = .ok (all.take d.remaining) ∧ d.deliver = ⟨all.take d.remaining, none⟩ := by
  obtain ⟨hv, hr⟩ := (Spelled.lists_sequence d.width_pos d.containsZero).times d.remaining
    d.reader.digits
  rw [← spelled, ha] at hv hr
  rcases hs : d.spelled with ⟨values, _ | rest⟩
  case none => rw [hs] at hr; exact absurd hr (Nat.not_lt_of_le h)
  case some =>
    rw [hs] at hv
    obtain ⟨d', hd, -⟩ := readAll_of_spelled [] hs
    exact ⟨by rw [Decoder.all, hd]; exact congrArg _ hv, by rw [deliver_eq, hs, hv]; rfl⟩

theorem all_of_lt {d : Decoder} {all : List (List UInt64)}
    (ha : Spelled.sequences d.header d.containsZero d.reader.digits = all)
    (h : all.length < d.remaining) :
    d.all.1 = .error d.shortage ∧ d.deliver = ⟨all, some d.shortage⟩ := by
  obtain ⟨hv, hr⟩ := (Spelled.lists_sequence d.width_pos d.containsZero).times d.remaining
    d.reader.digits
  rw [← spelled, ha] at hv hr
  rcases hs : d.spelled with ⟨values, _ | rest⟩
  case some => rw [hs] at hr; exact absurd hr.1 (Nat.not_le_of_lt h)
  case none =>
    rw [hs, List.take_of_length_le h.le] at hv
    exact ⟨readAll_of_none [] (by rw [hs]), by rw [deliver_eq, hs, hv]; rfl⟩

-- Whatever stands in its header, a batch is decoded as far as its bytes go.
theorem outcome_by_position (bytes : Bytes) (containsZero : Bool) :
    ((ofSource (.ofBytes bytes) containsZero).1 = .error .truncatedInput ↔
      bytes.length < Header.size) ∧
    (∀ width, (ofSource (.ofBytes bytes) containsZero).1 = .error (.invalidHeader width) ↔
      Header.size ≤ bytes.length ∧ bytes[0]? = some width ∧ ¬IsValidWidth width.toNat) ∧
    ∀ width, Header.size ≤ bytes.length → bytes[0]? = some width → IsValidWidth width.toNat →
      let elements := Bytes.elements width.toNat (bytes.drop Header.size)
      let complete := complete width containsZero bytes
      let count := Header.countAt bytes
      elements.length = 8 * (bytes.length - Header.size) / width.toNat ∧
      ∃ d s, ofSource (.ofBytes bytes) containsZero = (.ok d, s) ∧
        (Suffice (Header.lengthAt bytes) count elements →
          (complete.take count).length = count ∧ d.all.1 = .ok (complete.take count) ∧
            d.deliver = ⟨complete.take count, none⟩) ∧
        (¬Suffice (Header.lengthAt bytes) count elements →
          d.all.1 = .error .truncatedInput ∧ d.deliver = ⟨complete, some .truncatedInput⟩) ∧
        ∀ k, (d.given k).flatten.length ≤ 8 * (bytes.length - Header.size) / width.toNat := by
  refine ⟨ofSource_eq_truncatedInput_iff, fun _ => ofSource_eq_invalidHeader_iff,
    fun width hl hb hw => ⟨by rw [Bytes.length_elements, List.length_drop], ?_⟩⟩
  obtain ⟨d, s, hs, ha, hc, hsh, hla⟩ := ofSource_of_isValidWidth hl hb hw containsZero
  have hn : Suffice (Header.lengthAt bytes) d.remaining
      (Bytes.elements width.toNat (bytes.drop Header.size)) ↔
        d.remaining ≤ (complete width containsZero bytes).length := by
    rw [suffice_iff, complete, List.length_map]
  rw [← hc, hn, ← hsh]
  refine ⟨d, s, hs, fun h => ⟨List.length_take_of_le h, all_of_le ha h⟩,
    fun h => all_of_lt ha (Nat.lt_of_not_le h), fun k => ?_⟩
  rw [given_eq_take hla, values_spelled, ha]
  have hp := ((List.take_sublist k _).trans (List.take_sublist d.remaining
    (complete width containsZero bytes))).flatten.length_le
  exact hp.trans (length_flatten_complete_le ..)

-- A header that asks for as many sequences as it can, before two bytes.
theorem outcome_by_position_insatiable :
    ∃ d s, ofSource (.ofBytes [3, 0, 0, 0, 0, 255, 255, 255, 255, 0xC4, 0x58]) true = (.ok d, s) ∧
      d.all.1 = .error .truncatedInput ∧ d.deliver = ⟨[[5, 0]], some .truncatedInput⟩ ∧
      ∀ k, (d.given k).flatten.length ≤ 5 := by
  obtain ⟨-, d, s, hs, -, hf, hg⟩ :=
    (outcome_by_position [3, 0, 0, 0, 0, 255, 255, 255, 255, 0xC4, 0x58] true).2.2 3
      (by decide) rfl (by decide)
  obtain ⟨ha, hd⟩ := hf (by decide)
  exact ⟨d, s, hs, ha, hd, hg⟩

end Decoder
end Batch

end BitPacking
