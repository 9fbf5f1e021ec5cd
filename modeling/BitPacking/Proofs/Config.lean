import BitPacking.Config
import BitPacking.Proofs.Bits.Digits

namespace BitPacking

def Error.IsRefusal : Error → Prop
  | reservedValue _ | valueTooLarge .. => True
  | _                                  => False

namespace Config

-- The stored form of a value that has one.
def stored (c : Config) (value : UInt64) : UInt64 :=
  if c.containsZero then value + 1 else value

-- An element holds a value if its stored form fits and reads back as the value.
structure Holds (c : Config) (value : UInt64) : Prop where
  unmap_stored : c.unmap (c.stored value) = value
  stored_lt    : (c.stored value).toNat < 2 ^ c.bits

-- What is packed in a delimited sequence must not read back as its end.
structure Accepts (c : Config) (value : UInt64) : Prop extends c.Holds value where
  no_delimiter : c.stored value ≠ delimiter

def element (c : Config) (value : UInt64) : List Bool :=
  Bits.digits c.bits (c.stored value).toNat

def endMark (c : Config) : List Bool :=
  Bits.digits c.bits delimiter.toNat

variable {c : Config} {value s : UInt64}

@[simp]
theorem length_element (c : Config) (value : UInt64) : (c.element value).length = c.bits :=
  Bits.length_digits ..

@[simp]
theorem length_endMark (c : Config) : c.endMark.length = c.bits :=
  Bits.length_digits ..

theorem bits_pos (c : Config) : 0 < c.bits :=
  c.isValidWidth_bits.left

@[simp]
theorem toNat_ofNat_bits (c : Config) : (UInt8.ofNat c.bits).toNat = c.bits := by
  have h := c.isValidWidth_bits.right
  rw [UInt8.toNat_ofNat', Nat.mod_eq_of_lt]
  simp only [maxWidth] at h
  omega

theorem toNat_effectiveMax (c : Config) :
    c.effectiveMax.toNat = c.maxValue.toNat + c.containsZero.toNat := by
  rw [effectiveMax]
  split
  case isTrue h  =>
    rw [h, UInt64.toNat_add]
    exact Nat.mod_eq_of_lt (c.fits h)
  case isFalse h => simp [h]

theorem effectiveMax_lt (c : Config) : c.effectiveMax.toNat < 2 ^ c.bits := by
  rw [← Nat.one_shiftLeft, ← significantBits_le_iff c.bits_pos]
  exact le_refl (significantBits c.effectiveMax)

theorem batch_ok {maxValue : UInt64} {sequenceLength : UInt32} {containsZero : Bool}
    (h : (batch maxValue sequenceLength containsZero).value = .ok c) :
    c.maxValue = maxValue ∧ c.sequenceLength = sequenceLength ∧ c.containsZero = containsZero := by
  simp only [batch] at h
  split at h
  case isTrue  => cases h; exact ⟨rfl, rfl, rfl⟩
  case isFalse => cases h

theorem stored_of_remap (h : (c.remap value).value = .ok s) : s = c.stored value := by
  simp only [remap] at h
  split at h
  case isTrue hz  => cases h; simp_all [stored]
  case isFalse hz =>
    split at h
    case isTrue  => cases h; simp_all [stored]
    case isFalse => cases h

theorem remap_of_remapNonDelimiter (h : (c.remapNonDelimiter value).value = .ok s) :
    (c.remap value).value = .ok s ∧ s ≠ delimiter := by
  simp only [remapNonDelimiter, Logged.value_bind] at h
  split at h
  case h_1    => cases h
  case h_2 hr =>
    split at h
    case isTrue     => cases h
    case isFalse hd => cases h; exact ⟨hr, hd⟩

theorem lt_of_checkStored {above : Bool} (h : (c.checkStored s).value = .ok above) :
    s.toNat < 2 ^ c.bits := by
  simp only [checkStored] at h
  split at h
  case isTrue hs  => exact lt_of_le_of_lt (UInt64.le_iff_toNat_le.1 hs) c.effectiveMax_lt
  case isFalse hs =>
    simp only [Logged.value_bind] at h
    split at h
    case isTrue     => cases h
    case isFalse hb =>
      rw [← Nat.one_shiftLeft, ← significantBits_le_iff c.bits_pos]
      exact not_lt.1 hb

theorem holds_of_remap {above : Bool} (h : (c.remap value).value = .ok s)
    (hs : (c.checkStored s).value = .ok above) : c.Holds value := by
  have he := stored_of_remap h
  exact ⟨he ▸ unmap_of_remap h, he ▸ lt_of_checkStored hs⟩

theorem accepts_of_remapNonDelimiter {above : Bool}
    (h : (c.remapNonDelimiter value).value = .ok s)
    (hs : (c.checkStored s).value = .ok above) : c.Accepts value := by
  have ⟨hr, hd⟩ := remap_of_remapNonDelimiter h
  exact ⟨holds_of_remap hr hs, stored_of_remap hr ▸ hd⟩

theorem remapNonDelimiter_of_ne (h : c.stored value ≠ delimiter) :
    (c.remapNonDelimiter value).value = .ok (c.stored value) := by
  have hr : (c.remap value).value = .ok (c.stored value) := by
    rw [remap, stored]
    rw [stored] at h
    split
    case isTrue hz  => simp_all
    case isFalse hz =>
      split
      case isTrue hv  => simp_all
      case isFalse hv =>
        have hm : value + 1 = delimiter := by
          have := value.toNat_lt
          apply UInt64.toNat_inj.1
          rw [UInt64.toNat_add]
          simp [delimiter, UInt64.size] at hv ⊢
          omega
        simp_all
  simp only [remapNonDelimiter, Logged.value_bind, hr]
  rw [if_neg h]
  rfl

theorem checkStored_of_lt (h : s.toNat < 2 ^ c.bits) :
    ∃ above, (c.checkStored s).value = .ok above := by
  rw [← Nat.one_shiftLeft, ← significantBits_le_iff c.bits_pos] at h
  rw [checkStored]
  split
  case isTrue  => exact ⟨false, rfl⟩
  case isFalse =>
    simp only [Logged.value_bind]
    rw [if_neg (not_lt.2 h)]
    exact ⟨true, rfl⟩

-- The values that are let into a delimited sequence.
theorem accepts_iff : c.Accepts value ↔ ∃ s above,
    (c.remapNonDelimiter value).value = .ok s ∧ (c.checkStored s).value = .ok above := by
  constructor
  case mp  =>
    intro h
    have ⟨above, hs⟩ := checkStored_of_lt h.stored_lt
    exact ⟨_, above, remapNonDelimiter_of_ne h.no_delimiter, hs⟩
  case mpr => exact fun ⟨_, _, hr, hs⟩ => accepts_of_remapNonDelimiter hr hs

theorem remapNonDelimiter_error {e : Error}
    (h : (c.remapNonDelimiter value).value = .error e) : e.IsRefusal := by
  simp only [remapNonDelimiter, Logged.value_bind] at h
  split at h
  case h_1 hr =>
    cases h
    simp only [remap] at hr
    split at hr
    case isTrue  => cases hr
    case isFalse =>
      split at hr
      case isTrue  => cases hr
      case isFalse => cases hr; trivial
  case h_2    =>
    split at h
    case isTrue  => cases h; trivial
    case isFalse => cases h

theorem checkStored_error {e : Error} (h : (c.checkStored s).value = .error e) :
    e.IsRefusal := by
  simp only [checkStored] at h
  split at h
  case isTrue  => cases h
  case isFalse =>
    simp only [Logged.value_bind] at h
    split at h
    case isTrue  => cases h; trivial
    case isFalse => cases h

section elements

variable {values : List UInt64} {xs ds : List Bool}

theorem length_elements (c : Config) (values : List UInt64) :
    (values.flatMap c.element).length = values.length * c.bits := by
  induction values
  case nil          => exact (Nat.zero_mul _).symm
  case cons v vs hi =>
    rw [List.flatMap_cons, List.length_append, hi, c.length_element, List.length_cons]
    ring

theorem exists_append_of_prefix {α : Type} {xs ys zs : List α} (h : xs <+: ys ++ zs)
    (hl : ys.length ≤ xs.length) : ∃ xs', xs = ys ++ xs' ∧ xs' <+: zs := by
  have ⟨xs', hx⟩ := List.prefix_of_prefix_length_le (List.prefix_append ys zs) h hl
  subst hx
  exact ⟨xs', rfl, (List.prefix_append_right_inj ys).1 h⟩

theorem exists_elements_of_prefix (h : xs <+: values.flatMap c.element ++ ds)
    (hl : xs.length < values.length * c.bits + c.bits) :
    ∃ front ds', front <+: values ∧ ds'.length < c.bits ∧
      xs = front.flatMap c.element ++ ds' := by
  induction values generalizing xs
  case nil          => exact ⟨[], xs, List.prefix_rfl, by simpa using hl, rfl⟩
  case cons v vs hi =>
    by_cases hv : xs.length < c.bits
    case pos => exact ⟨[], xs, List.nil_prefix, hv, rfl⟩
    case neg =>
      rw [List.flatMap_cons, List.append_assoc] at h
      have ⟨xs', hx, hp⟩ := exists_append_of_prefix h (by simpa using hv)
      have hl' : xs'.length < vs.length * c.bits + c.bits := by
        simp [hx, Nat.succ_mul] at hl
        omega
      have ⟨front, ds', hf, hd', hx'⟩ := hi hp hl'
      refine ⟨v :: front, ds', List.cons_prefix_cons.2 ⟨rfl, hf⟩, hd', ?_⟩
      rw [hx, hx', List.flatMap_cons, List.append_assoc]

end elements

end Config
end BitPacking
