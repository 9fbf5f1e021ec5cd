import Mathlib.Order.WellFounded

namespace BitPacking.Schedule

variable {σ ι : Type} {take : σ → ι → σ} {s : σ} {turns : Nat → ι}

def after (take : σ → ι → σ) (s : σ) (turns : Nat → ι) : Nat → σ
  | 0     => s
  | n + 1 => take (after take s turns n) (turns n)

def Fair (turns : Nat → ι) : Prop :=
  ∀ i n, ∃ m, n ≤ m ∧ turns m = i

theorem after_invariant {P : σ → Prop} (h : P s) (ht : ∀ s i, P s → P (take s i))
    (turns : Nat → ι) (n : Nat) : P (after take s turns n) := by
  induction n
  case zero      => exact h
  case succ n hi => exact ht _ _ hi

-- A state that no other comes after, in the order in which turns make progress, is never left.
theorem exists_halt {r : σ → σ → Prop} (hr : WellFounded r)
    (ht : ∀ s i, take s i = s ∨ r (take s i) s) (hf : Fair turns) (s : σ) :
    ∃ n, ∀ i, take (after take s turns n) i = after take s turns n := by
  have ⟨_, ⟨n, rfl⟩, hmin⟩ := hr.has_min (Set.range (after take s turns)) ⟨s, 0, rfl⟩
  have hstay (m : Nat) (hm : n ≤ m) : after take s turns m = after take s turns n := by
    induction m, hm using Nat.le_induction
    case base         => rfl
    case succ m _ hi  =>
      rw [after, hi]
      exact (ht _ _).resolve_right fun h => hmin _ ⟨m + 1, by rw [after, hi]⟩ h
  refine ⟨n, fun i => ?_⟩
  have ⟨m, hm, hi⟩ := hf i n
  have h := hstay (m + 1) (Nat.le_succ_of_le hm)
  rwa [after, hstay m hm, hi] at h

end BitPacking.Schedule
