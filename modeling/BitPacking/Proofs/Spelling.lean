import BitPacking.Proofs.Batch.Encoder
import BitPacking.Proofs.Bits.Reader

namespace BitPacking

namespace Bits

variable {width n : Nat} {raw : UInt64} {ds rest : List Bool}

-- The element in front and the digits after it, unless there are too few of them.
def element? (width : Nat) (ds : List Bool) : Option (UInt64 × List Bool) :=
  if width ≤ ds.length then some (.ofNat (number (ds.take width)), ds.drop width) else none

theorem element?_eq_none_iff : element? width ds = none ↔ ds.length < width := by
  rw [element?]
  split
  case isTrue h  => simp only [reduceCtorEq, false_iff]; omega
  case isFalse h => simp only [true_iff]; omega

theorem element?_eq_some (h : element? width ds = some (raw, rest)) :
    width ≤ ds.length ∧ raw = .ofNat (number (ds.take width)) ∧ rest = ds.drop width := by
  rw [element?] at h
  split at h
  case isTrue hl => cases h; exact ⟨hl, rfl, rfl⟩
  case isFalse   => cases h

theorem digits_of_element? (hw : width ≤ maxWidth) (h : element? width ds = some (raw, rest)) :
    ds = digits width raw.toNat ++ rest ∧ raw.toNat < 2 ^ width := by
  obtain ⟨hl, rfl, rfl⟩ := element?_eq_some h
  have hlt : (ds.take width).length = width := List.length_take_of_le hl
  have hn : number (ds.take width) < 2 ^ width := by
    have := number_lt (ds.take width)
    rwa [hlt] at this
  have h64 : number (ds.take width) < 2 ^ 64 :=
    hn.trans_le (Nat.pow_le_pow_right Nat.two_pos hw)
  have hd := digits_number (ds.take width)
  rw [hlt] at hd
  rw [UInt64.toNat_ofNat_of_lt' h64, hd, List.take_append_drop]
  exact ⟨rfl, hn⟩

theorem length_of_element? (h : element? width ds = some (raw, rest)) (hr : raw ≠ delimiter) :
    rest.length < ds.length := by
  obtain ⟨hl, rfl, rfl⟩ := element?_eq_some h
  rw [List.length_drop]
  cases width
  case zero   => exact absurd rfl hr
  case succ k => omega

namespace Reader

variable {r : Reader}

theorem readBits_of_element? (h : element? width r.digits = some (raw, rest)) :
    ∃ r', r.readBits width = (.ok (some raw), r') ∧ r'.digits = rest ∧ r'.ending = r.ending := by
  obtain ⟨hl, rfl, rfl⟩ := element?_eq_some h
  exact readBits_of_le hl

theorem readBits_of_none (h : element? width r.digits = none) :
    ∃ r', r.readBits width = (r.ending.map fun _ => none, r') :=
  ⟨_, Prod.ext (readBits_of_lt (element?_eq_none_iff.1 h)) rfl⟩

theorem readBytes_ofSource_of_lt {source : Source} (h : source.supplied.length < n) :
    ∃ failure r, (ofSource source).readBytes n = ((source.supplied, failure), r) ∧
      (failure = none ∧ source.ending = .ok () ∨
        ∃ e, failure = some e ∧ source.ending = .error e) := by
  have hr := readBytes_of_lt (r := .ofSource source) h
  rw [bytes_ofSource] at hr
  refine ⟨_, _, Prod.ext hr rfl, ?_⟩
  change _ = none ∧ (ofSource source).ending = .ok () ∨
    ∃ e, _ = some e ∧ (ofSource source).ending = .error e
  rcases (ofSource source).ending with e | _
  case error => exact .inr ⟨e, rfl, rfl⟩
  case ok    => exact .inl ⟨rfl, rfl⟩

end Reader
end Bits

-- What an error that tells of missing input is where the input does not end but fails.
def Error.atEnding : Error → Except IoError Unit → Error
  | truncatedInput, .error cause | missingEndMarker, .error cause => io cause
  | e, _ => e

@[simp]
theorem Error.atEnding_ok (e : Error) (u : Unit) : e.atEnding (.ok u) = e := by
  cases e <;> rfl

-- The values that digits spell, and the digits after the last of them, unless there are too few.
structure Spelled (α : Type) where
  values : List α
  rest   : Option (List Bool)

namespace Spelled

variable {α : Type}

def cons (a : α) (s : Spelled α) : Spelled α :=
  { s with values := a :: s.values }

def whole? (s : Spelled α) : Option (List α × List Bool) :=
  s.rest.map (s.values, ·)

def failure (s : Spelled α) (shortage : Error) : Option Error :=
  if s.rest.isSome then none else some shortage

@[simp]
theorem values_cons (a : α) (s : Spelled α) : (s.cons a).values = a :: s.values :=
  rfl

@[simp]
theorem failure_cons (a : α) (s : Spelled α) (e : Error) : (s.cons a).failure e = s.failure e :=
  rfl

@[simp]
theorem map_failure (s : Spelled α) (f : Error → Error) (e : Error) :
    (s.failure e).map f = s.failure (f e) := by
  rw [failure, failure]
  split <;> rfl

theorem cons_eq_some {a : α} {s : Spelled α} {as : List α} {rest : List Bool}
    (h : s.cons a = ⟨as, some rest⟩) : ∃ as', as = a :: as' ∧ s = ⟨as', some rest⟩ := by
  cases s
  cases h
  exact ⟨_, rfl, rfl⟩

theorem whole?_eq_some {s : Spelled α} {as : List α} {rest : List Bool}
    (h : s.whole? = some (as, rest)) : s = ⟨as, some rest⟩ := by
  match s with
  | ⟨_, some _⟩ => cases h; rfl
  | ⟨_, none⟩   => cases h

theorem whole?_eq_none {s : Spelled α} (h : s.whole? = none) : s.rest = none :=
  Option.map_eq_none_iff.1 h

def times (item? : List Bool → Option (α × List Bool)) : (n : Nat) → (ds : List Bool) → Spelled α
  | 0, ds => ⟨[], some ds⟩
  | n + 1, ds =>
    match item? ds with
    | none           => ⟨[], none⟩
    | some (a, rest) => (times item? n rest).cons a

-- The values of a run, which a delimiter ends.
def run (width : Nat) (containsZero : Bool) (ds : List Bool) : Spelled UInt64 :=
  match _h : Bits.element? width ds with
  | none             => ⟨[], none⟩
  | some (raw, rest) =>
    if _hr : raw = delimiter then
      ⟨[], some rest⟩
    else
      (run width containsZero rest).cons (unmap containsZero raw)
termination_by ds.length
decreasing_by exact Bits.length_of_element? ‹_› ‹_›

def value? (width : Nat) (containsZero : Bool) (ds : List Bool) : Option (UInt64 × List Bool) :=
  (Bits.element? width ds).map (Prod.map (unmap containsZero) id)

-- The sequence in front, as the header of a batch tells.
def sequence? (header : Batch.Header) (containsZero : Bool) (ds : List Bool) :
    Option (List UInt64 × List Bool) :=
  let width := header.bits.toNat
  if header.Delimited then
    (run width containsZero ds).whole?
  else
    (times (value? width containsZero) header.sequenceLength.toNat ds).whole?

variable {width : Nat} {containsZero : Bool} {ds rest : List Bool}

theorem value?_eq_none (h : value? width containsZero ds = none) :
    Bits.element? width ds = none :=
  Option.map_eq_none_iff.1 h

theorem value?_eq_some {value : UInt64} (h : value? width containsZero ds = some (value, rest)) :
    ∃ raw, Bits.element? width ds = some (raw, rest) ∧ value = unmap containsZero raw := by
  obtain ⟨⟨raw, _⟩, hr, hv⟩ := Option.map_eq_some_iff.1 h
  cases hv
  exact ⟨raw, hr, rfl⟩

theorem whole?_cons (a : α) (s : Spelled α) :
    (s.cons a).whole? = s.whole?.map (Prod.map (a :: ·) id) := by
  rcases s with ⟨as, _ | rest⟩ <;> rfl

variable {raw : UInt64}

theorem run_of_none (h : Bits.element? width ds = none) :
    (run width containsZero ds).whole? = none := by
  rw [run]
  split
  case h_1    => rfl
  case h_2 hx => rw [h] at hx; cases hx

theorem run_of_delimiter (h : Bits.element? width ds = some (delimiter, rest)) :
    (run width containsZero ds).whole? = some ([], rest) := by
  rw [run]
  split
  case h_1 hx => rw [h] at hx; cases hx
  case h_2 hx => rw [h] at hx; cases hx; rfl

theorem run_of_value (h : Bits.element? width ds = some (raw, rest)) (hr : raw ≠ delimiter) :
    (run width containsZero ds).whole? =
      (run width containsZero rest).whole?.map (Prod.map (unmap containsZero raw :: ·) id) := by
  rw [run]
  split
  case h_1 hx => rw [h] at hx; cases hx
  case h_2 hx => rw [h] at hx; cases hx; rw [dif_neg hr, whole?_cons]

variable {item? : List Bool → Option (α × List Bool)} {a : α} {n : Nat}

theorem times_of_none (h : item? ds = none) (n : Nat) : (times item? (n + 1) ds).whole? = none := by
  rw [times, h]
  rfl

theorem times_of_some (h : item? ds = some (a, rest)) (n : Nat) :
    (times item? (n + 1) ds).whole? = (times item? n rest).whole?.map (Prod.map (a :: ·) id) := by
  rw [times, h]
  exact whole?_cons a _

theorem times_eq_none_of_le {m : Nat} (hm : m ≤ n) (h : (times item? m ds).whole? = none) :
    (times item? n ds).whole? = none := by
  induction n generalizing m ds
  case zero      =>
    cases Nat.le_zero.1 hm
    exact h
  case succ n hi =>
    rcases m with _ | m
    case zero => cases h
    case succ =>
      rcases hx : item? ds with _ | ⟨a, rest⟩
      case none => exact times_of_none hx n
      case some =>
        rw [times_of_some hx, Option.map_eq_none_iff] at h ⊢
        exact hi (Nat.le_of_succ_le_succ hm) h

variable {header : Batch.Header}

theorem sequence?_of_delimited (h : header.Delimited) :
    sequence? header containsZero = fun ds => (run header.bits.toNat containsZero ds).whole? := by
  funext ds
  rw [sequence?, if_pos h]

theorem sequence?_of_not_delimited (h : ¬header.Delimited) :
    sequence? header containsZero = fun ds =>
      (times (value? header.bits.toNat containsZero) header.sequenceLength.toNat ds).whole? := by
  funext ds
  rw [sequence?, if_neg h]

end Spelled
end BitPacking
