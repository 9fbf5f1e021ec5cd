namespace BitPacking

-- Pieces of `n` members each, by where they start. A shorter rest is left out.
def rows {α : Type} (n : Nat) (as : List α) : List (List α) :=
  (List.range (as.length / n)).map fun i => (as.drop (i * n)).take n

variable {α β : Type} {n : Nat} {as : List α}

@[simp]
theorem length_rows (n : Nat) (as : List α) : (rows n as).length = as.length / n := by
  simp [rows]

theorem rows_of_lt (h : as.length < n) : rows n as = [] := by
  rw [rows, Nat.div_eq_of_lt h]
  rfl

theorem rows_of_le (hn : 0 < n) (h : n ≤ as.length) :
    rows n as = as.take n :: rows n (as.drop n) := by
  have hl : as.length / n = (as.drop n).length / n + 1 := by
    rw [List.length_drop, ← Nat.add_div_right _ hn, Nat.sub_add_cancel h]
  rw [rows, hl, List.range_succ_eq_map, List.map_cons, List.map_map, Nat.zero_mul, List.drop_zero,
    rows]
  congr 2
  funext i
  rw [Function.comp_apply, List.drop_drop, Nat.succ_mul, Nat.add_comm]

theorem map_rows (f : α → β) (n : Nat) (as : List α) :
    (rows n as).map (·.map f) = rows n (as.map f) := by
  simp [rows, List.map_take, List.map_drop, Function.comp_def]

theorem flatten_rows (n : Nat) (as : List α) :
    (rows n as).flatten = as.take (as.length / n * n) := by
  rw [rows]
  induction as.length / n
  case zero      => rw [Nat.zero_mul]; rfl
  case succ k hi =>
    rw [List.range_succ, List.map_append, List.flatten_append, hi, Nat.succ_mul, List.take_add,
      List.map_singleton, List.flatten_singleton]

theorem length_flatten_rows_le (n : Nat) (as : List α) :
    (rows n as).flatten.length ≤ as.length := by
  rw [flatten_rows]
  exact List.length_take_le' ..

theorem flatten_rows_of_dvd (h : n ∣ as.length) : (rows n as).flatten = as := by
  rw [flatten_rows, Nat.div_mul_cancel h, List.take_length]

end BitPacking
