import BitPacking.Sink

namespace BitPacking.Sink

-- A sink that never fails a write, however little it accepts at a time and however often it is
-- interrupted.
def Behaviour.Steady {σ : Type} (b : Behaviour σ) : Prop :=
  ∀ state bytes, bytes ≠ [] → ∃ n, 0 < n ∧ (b.write state bytes).1.2 = .ok n

variable {σ : Type} {s s' : Sink σ} {bytes : Bytes}

-- A sink that accepted some more bytes and is otherwise what it was to those who use it.
structure Accepts (s s' : Sink σ) (bytes : Bytes) : Prop where
  accepted  : s'.accepted = s.accepted ++ bytes
  flushes   : s'.flushes = s.flushes
  behaviour : s'.behaviour = s.behaviour

namespace Accepts

variable {s₁ : Sink σ} {bytes' : Bytes}

theorem refl (s : Sink σ) : Accepts s s [] :=
  ⟨(List.append_nil _).symm, rfl, rfl⟩

theorem trans (h : Accepts s s₁ bytes) (h' : Accepts s₁ s' bytes') :
    Accepts s s' (bytes ++ bytes') where
  accepted  := by rw [h'.accepted, h.accepted, List.append_assoc]
  flushes   := h'.flushes.trans h.flushes
  behaviour := h'.behaviour.trans h.behaviour

end Accepts

theorem flush_eq {r : Except IoError Unit} (h : ByteSink.flush s = (r, s')) :
    s'.accepted = s.accepted ∧ s'.flushes = r :: s.flushes := by
  cases h
  exact ⟨rfl, rfl⟩

@[simp]
theorem flushes_release (s : Sink σ) : (ByteSink.release s).flushes = s.flushes :=
  rfl

theorem write_ok {n : Nat} (h : s.write bytes = (.ok n, s')) :
    n ≤ bytes.length ∧ Accepts s s' (bytes.take n) := by
  simp only [write] at h
  split at h
  case h_1 => cases h; exact ⟨Nat.min_le_right .., by simp [accepted], rfl, rfl⟩
  case h_2 => cases h

theorem write_error {e : IoError} (h : s.write bytes = (.error e, s')) : Accepts s s' [] := by
  simp only [write] at h
  split at h
  case h_1 => cases h
  case h_2 => cases h; exact ⟨by simp [accepted], rfl, rfl⟩

theorem writeAll_accepts {r : Except IoError Unit} (h : ByteSink.writeAll s bytes = (r, s')) :
    ∃ front, front <+: bytes ∧ Accepts s s' front ∧ (front = bytes ↔ r = .ok ()) := by
  fun_induction ByteSink.writeAll s bytes
  case case1 s                 => cases h; exact ⟨[], List.prefix_rfl, .refl _, by simp⟩
  case case2 s b bs s₁ hw      =>
    cases h
    exact ⟨[], List.nil_prefix, (write_ok hw).right, by simp⟩
  case case3 s b bs n s₁ hw hi =>
    have ⟨hn, ha⟩ := write_ok hw
    have ⟨front, hp, ha', hr⟩ := hi h
    have hb : (b :: bs).take (n + 1) ++ bs.drop n = b :: bs := List.take_append_drop (n + 1) _
    have hp' := (List.prefix_append_right_inj ((b :: bs).take (n + 1))).2 hp
    have hr' : (b :: bs).take (n + 1) ++ front = (b :: bs).take (n + 1) ++ bs.drop n ↔ _ :=
      List.append_right_inj _
    rw [hb] at hp' hr'
    exact ⟨_, hp', ha.trans ha', hr'.trans hr⟩
  case case4 s b bs e s₁ hw    =>
    cases h
    exact ⟨[], List.nil_prefix, write_error hw, by simp⟩

theorem writeAll_ok (h : ByteSink.writeAll s bytes = (.ok (), s')) : Accepts s s' bytes := by
  have ⟨front, _, ha, hf⟩ := writeAll_accepts h
  exact hf.2 rfl ▸ ha

theorem writeAll_error {e : IoError} (h : ByteSink.writeAll s bytes = (.error e, s')) :
    ∃ front, front <+: bytes ∧ front ≠ bytes ∧ Accepts s s' front := by
  have ⟨front, hp, ha, hf⟩ := writeAll_accepts h
  exact ⟨front, hp, (nomatch hf.1 ·), ha⟩

theorem write_steady (hs : s.behaviour.Steady) (hb : bytes ≠ []) :
    ∃ n, (ByteSink.write s bytes).1 = .ok (n + 1) := by
  have ⟨n, hn, hw⟩ := hs s.state bytes hb
  have hl := List.length_pos_iff.2 hb
  match hm : min n bytes.length with
  | 0     => omega
  | m + 1 =>
    refine ⟨m, ?_⟩
    simp only [ByteSink.write, write, hw, hm]

theorem writeAll_steady (hs : s.behaviour.Steady) (bytes : Bytes) :
    (ByteSink.writeAll s bytes).1 = .ok () := by
  fun_induction ByteSink.writeAll s bytes
  case case1                   => rfl
  case case2 s b bs s₁ hw      =>
    have ⟨n, h⟩ := write_steady hs (List.cons_ne_nil b bs)
    rw [hw] at h
    cases h
  case case3 s b bs n s₁ hw hi => exact hi ((write_ok hw).right.behaviour ▸ hs)
  case case4 s b bs e s₁ hw    =>
    have ⟨n, h⟩ := write_steady hs (List.cons_ne_nil b bs)
    rw [hw] at h
    cases h

end BitPacking.Sink
