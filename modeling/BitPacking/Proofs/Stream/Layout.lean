import BitPacking.Proofs.Config

namespace BitPacking.Stream

variable {c : Config} {values front : List UInt64} {bytes bytes' : Bytes} {xs ds : List Bool}

def opening (c : Config) (values : List UInt64) : List Bool :=
  Bits.digits 8 c.bits ++ values.flatMap c.element

def Whole (c : Config) (values : List UInt64) (bytes : Bytes) : Prop :=
  ∃ k < 8, Bytes.digits bytes = opening c values ++ c.endMark ++ List.replicate k false

-- Breaks off within the element that follows the given values, or within the end mark.
def Cut (c : Config) (values : List UInt64) (bytes : Bytes) : Prop :=
  ∃ ds, ds.length < c.bits ∧ Bytes.digits bytes = opening c values ++ ds

-- Breaks off before the end mark is complete: in front of the header or after some of the values.
def Unfinished (c : Config) (values : List UInt64) (bytes : Bytes) : Prop :=
  bytes = [] ∨ ∃ front, front <+: values ∧ Cut c front bytes

@[simp]
theorem opening_append (c : Config) (values values' : List UInt64) :
    opening c (values ++ values') = opening c values ++ values'.flatMap c.element := by
  rw [opening, opening, List.flatMap_append, List.append_assoc]

theorem length_opening (c : Config) (values : List UInt64) :
    (opening c values).length = 8 + values.length * c.bits := by
  rw [opening, List.length_append, Bits.length_digits, Config.length_elements]

theorem length_opening_le (h : front <+: values) :
    (opening c front).length ≤ (opening c values).length := by
  rw [length_opening, length_opening]
  exact Nat.add_le_add_left (Nat.mul_le_mul_right _ h.length_le) 8

theorem opening_split {front' : List UInt64} (hf : front <+: values) (hf' : front' <+: values)
    (hd : opening c front ++ xs = opening c front' ++ ds) (hl : ds.length < c.bits) :
    ∃ more, front' = front ++ more ∧ xs = more.flatMap c.element ++ ds := by
  have hlen := congrArg List.length hd
  simp only [List.length_append, length_opening] at hlen
  have hle : front.length ≤ front'.length := by
    by_contra h
    have := Nat.mul_le_mul_right c.bits (Nat.lt_of_not_le h)
    simp only [Nat.succ_mul] at this
    omega
  have ⟨more, hm⟩ := List.prefix_of_prefix_length_le hf hf' hle
  refine ⟨more, hm.symm, ?_⟩
  rw [← hm, opening_append, List.append_assoc] at hd
  exact List.append_cancel_left hd

theorem Cut.ne_nil (h : Cut c values bytes) : bytes ≠ [] := by
  have ⟨ds, _, hb⟩ := h
  intro hn
  have hl := congrArg List.length hb
  simp [hn, length_opening] at hl
  omega

theorem Whole.length_eq (h : Whole c values bytes) :
    bytes.length = 1 + (c.bits * (values.length + 1) + 7) / 8 := by
  have ⟨k, hk, hd⟩ := h
  have hl := congrArg List.length hd
  simp [length_opening] at hl
  rw [Nat.mul_succ, Nat.mul_comm]
  omega

theorem Whole.unique (h : Whole c values bytes) (h' : Whole c values bytes') : bytes' = bytes := by
  have hl := h'.length_eq.trans h.length_eq.symm
  have ⟨k, _, hd⟩ := h
  have ⟨k', _, hd'⟩ := h'
  have hk : k' = k := by
    have hk := congrArg List.length hd
    have hk' := congrArg List.length hd'
    simp only [List.length_append, Bytes.length_digits, List.length_replicate] at hk hk'
    omega
  exact Bytes.digits_injective (hk ▸ hd' |>.trans hd.symm)

-- Too few digits for another element after the given ones.
theorem unfinished_of_length_lt (h : Bytes.digits bytes <+: opening c values ++ ds)
    (hl : 8 * bytes.length < (opening c values).length + c.bits) : Unfinished c values bytes := by
  cases bytes
  case nil       => exact .inl rfl
  case cons b bs =>
    rw [opening, List.append_assoc] at h
    have ⟨xs, hx, hp⟩ := Config.exists_append_of_prefix h (by simp)
    have hlx := congrArg List.length hx
    have ⟨front, ds', hf, hd', hx'⟩ := Config.exists_elements_of_prefix hp (by
      simp [length_opening] at hl hlx
      omega)
    exact .inr ⟨front, hf, ds', hd', by rw [hx, hx', opening, List.append_assoc]⟩

theorem Unfinished.mono (h : Unfinished c front bytes) (hf : front <+: values) :
    Unfinished c values bytes := by
  cases h
  case inl h => exact .inl h
  case inr h =>
    have ⟨front', hf', hc⟩ := h
    exact .inr ⟨front', hf'.trans hf, hc⟩

theorem Unfinished.of_prefix (h : Unfinished c values bytes) (hp : bytes' <+: bytes) :
    Unfinished c values bytes' := by
  cases h
  case inl h =>
    subst h
    exact .inl (List.prefix_nil.1 hp)
  case inr h =>
    have ⟨front, hf, ds, hd, hb⟩ := h
    have hl := congrArg List.length hb
    have hle := hp.length_le
    have hu : Unfinished c front bytes' := unfinished_of_length_lt (hb ▸ Bytes.digits_prefix hp) (by
      simp at hl
      omega)
    exact hu.mono hf

theorem Whole.unfinished_of_prefix (h : Whole c values bytes) (hp : bytes' <+: bytes)
    (hne : bytes' ≠ bytes) : Unfinished c values bytes' := by
  have ⟨k, hk, hd⟩ := h
  have hlt : bytes'.length < bytes.length :=
    lt_of_le_of_ne hp.length_le (hne <| hp.eq_of_length ·)
  have hl := congrArg List.length hd
  rw [List.append_assoc] at hd
  apply unfinished_of_length_lt (hd ▸ Bytes.digits_prefix hp)
  simp at hl
  omega

theorem Whole.not_unfinished (h : Whole c values bytes) : ¬Unfinished c values bytes := by
  have ⟨k, hk, hd⟩ := h
  have hl := congrArg List.length hd
  intro hu
  cases hu
  case inl hb =>
    rw [hb] at hl
    simp [length_opening] at hl
    omega
  case inr hc =>
    have ⟨front, hf, ds, hds, hb⟩ := hc
    have hl' := congrArg List.length hb
    have hle := length_opening_le (c := c) hf
    simp at hl hl'
    omega

end BitPacking.Stream
