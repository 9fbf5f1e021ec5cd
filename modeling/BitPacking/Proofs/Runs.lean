import BitPacking.Event

namespace BitPacking.Logged

variable {α σ : Type} {step : σ → α → Logged (Except Error Unit × σ)} {s : σ} {a : α} {as : List α}

-- Takes a step for each member of a list in turn, whatever the ones before it came to.
def run (step : σ → α → Logged (Except Error Unit × σ)) (s : σ) :
    List α → Logged (List (Except Error Unit) × σ)
  | []      => pure ([], s)
  | a :: as => do
    let (r, s) ← step s a
    let (rs, s) ← run step s as
    return (r :: rs, s)

theorem run_cons (step : σ → α → Logged (Except Error Unit × σ)) (s : σ) (a : α) (as : List α) :
    run step s (a :: as) =
      let x := step s a
      let y := run step x.value.2 as
      ⟨(x.value.1 :: y.value.1, y.value.2), x.events ++ y.events⟩ := by
  rw [run]
  simp only [bind, pure, List.append_nil]

theorem run_of_stuck {cause : Error} (h : ∀ a, step s a = pure (.error cause, s)) (as : List α) :
    run step s as = pure (as.map fun _ => .error cause, s) := by
  induction as
  case nil          => rfl
  case cons a as hi =>
    rw [run_cons, h a]
    simp only [value_pure, hi, events_pure, List.append_nil, List.map_cons]
    rfl

theorem each_cons_of_ok (h : step s a = pure (.ok (), s)) :
    each step s (a :: as) = each step s as := by
  rw [each_cons, h, pure_bind]

theorem each_cons_of_error {cause : Error} {s' : σ} {events : List Event}
    (h : step s a = ⟨(.error cause, s'), events⟩) :
    each step s (a :: as) = ⟨(.error cause, s'), events⟩ := by
  rw [each_cons, h]
  simp only [bind, pure, List.append_nil]

theorem each_of_forall (h : ∀ a ∈ as, step s a = pure (.ok (), s)) :
    each step s as = pure (.ok (), s) := by
  induction as
  case nil          => rfl
  case cons a as hi =>
    have ⟨ha, has⟩ := List.forall_mem_cons.1 h
    rw [each_cons_of_ok ha]
    exact hi has

-- Where one thing fails and all others change nothing, so does any list that it is a member of.
theorem each_of_mem {cause : Error} {s' : σ} {events : List Event}
    (h : step s a = ⟨(.error cause, s'), events⟩)
    (ho : ∀ b, b ≠ a → step s b = pure (.ok (), s)) (hm : a ∈ as) :
    each step s as = ⟨(.error cause, s'), events⟩ := by
  induction as
  case nil          => cases hm
  case cons b as hi =>
    by_cases hb : b = a
    case pos => exact each_cons_of_error (hb ▸ h)
    case neg =>
      rw [each_cons_of_ok (ho b hb)]
      exact hi ((List.mem_cons.1 hm).resolve_left (Ne.symm hb))

end BitPacking.Logged
