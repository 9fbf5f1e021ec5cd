namespace BitPacking

structure Table (κ β : Type) where
  pairs : List (κ × β) := []
  nodup : (pairs.map Prod.fst).Nodup := by simp

namespace Table

variable {κ β : Type} [DecidableEq κ]

def keys (t : Table κ β) : List κ :=
  t.pairs.map Prod.fst

def get? (t : Table κ β) (k : κ) : Option β :=
  (t.pairs.find? (·.1 = k)).map Prod.snd

def filterKeys (t : Table κ β) (p : κ → Bool) : Table κ β where
  pairs := t.pairs.filter (p ·.1)
  nodup := t.nodup.sublist (List.filter_sublist.map _)

def erase (t : Table κ β) (k : κ) : Table κ β :=
  t.filterKeys (· ≠ k)

def insert (t : Table κ β) (k : κ) (v : β) : Table κ β where
  pairs := (k, v) :: (t.erase k).pairs
  nodup := by
    simp only [List.map_cons, List.nodup_cons]
    exact ⟨by simp [erase, filterKeys], (t.erase k).nodup⟩

@[simp]
theorem get?_filterKeys (t : Table κ β) (p : κ → Bool) (k : κ) :
    (t.filterKeys p).get? k = if p k then t.get? k else none := by
  simp only [get?, filterKeys, List.find?_filter]
  split
  · next h =>
    congr 2
    funext x
    by_cases hx : x.1 = k <;> simp_all
  · next h =>
    have : t.pairs.find? (fun x => p x.1 && decide (x.1 = k)) = none := by
      rw [List.find?_eq_none]
      rintro x - hx
      simp at hx
      exact h (hx.2 ▸ hx.1)
    simp [this]

@[simp]
theorem get?_erase (t : Table κ β) (k k' : κ) :
    (t.erase k).get? k' = if k' = k then none else t.get? k' := by
  by_cases h : k' = k <;> simp [erase, h]

@[simp]
theorem get?_insert (t : Table κ β) (k k' : κ) (v : β) :
    (t.insert k v).get? k' = if k' = k then some v else t.get? k' := by
  by_cases h : k' = k
  · simp [get?, insert, h]
  · have := get?_erase t k k'
    simp only [get?, h, if_false] at this
    simp [get?, insert, h, Ne.symm h, this]

theorem mem_pairs_iff {t : Table κ β} {k : κ} {v : β} : (k, v) ∈ t.pairs ↔ t.get? k = some v := by
  obtain ⟨pairs, nodup⟩ := t
  simp only [get?]
  induction pairs with
  | nil => simp
  | cons x xs ih =>
    rw [List.map_cons, List.nodup_cons] at nodup
    rw [List.mem_cons, ih nodup.2, List.find?_cons]
    by_cases hx : x.1 = k
    · have hn : xs.find? (·.1 = k) = none := by
        rw [List.find?_eq_none]
        intro y hy hk
        exact nodup.1 (hx ▸ List.mem_map.2 ⟨y, hy, of_decide_eq_true hk⟩)
      cases x
      simp_all [eq_comm]
    · have hne : (k, v) ≠ x := fun h => hx (h ▸ rfl)
      simp [hx, hne]

theorem mem_keys_iff {t : Table κ β} {k : κ} : k ∈ t.keys ↔ (t.get? k).isSome := by
  simp [keys, get?, List.find?_isSome]

end Table
end BitPacking
