import BitPacking.Proofs.Archive.Name
import BitPacking.Proofs.Archive.Write
import Mathlib.Data.List.Nodup
import Mathlib.Data.List.Perm.Subperm

namespace BitPacking.Archive

inductive Deposit (σ : Type) [Archive σ]
  | counting
  | probing (i : Nat)
  | writing (name : String) (write : Write σ) (source : Source)
  | done (completion : Completion String)

namespace Deposit

variable {σ : Type} [Archive σ]

-- The next access, or the next step of the write that is the last one.
def step (a : σ) (batch : Bytes) : Deposit σ → σ × Deposit σ
  | counting                  => (a, probing (names a).length)
  | probing i                 =>
    let name := batchName i
    (a, if contains a name then probing (i + 1) else writing name (begin name) (.ofBytes batch))
  | writing name write source =>
    match request write with
    | .done c  => (a, done (c.map fun _ => name))
    | .turn    =>
      let (a, write) := (turn a write).value
      (a, writing name write source)
    | .input n =>
      let (x, source) := source.read n
      let (a, write) := feed a write x
      (a, writing name write source)
  | done completion           => (a, done completion)

def steps (batch : Bytes) : (k : Nat) → (a : σ) → Deposit σ → σ × Deposit σ
  | 0, a, c     => (a, c)
  | k + 1, a, c => steps batch k (c.step a batch).1 (c.step a batch).2

end Deposit

section

variable {σ : Type} [Archive σ] {a : σ} {i j left : Nat}

theorem toList_batchName (i : Nat) :
    (batchName i).toList = (toString i).toList ++ ".bin".toList := by
  rw [batchName]
  simp
  rfl

theorem of_mem_batchName {c : Char} (h : c ∈ (batchName i).toList) :
    c.isDigit = true ∨ c ∈ ".bin".toList := by
  rw [toList_batchName, List.mem_append] at h
  exact h.imp_left Name.isDigit_of_mem_toString

theorem exists_digit_batchName (i : Nat) : ∃ c ∈ (batchName i).toList, c.isDigit = true := by
  obtain ⟨c, hc⟩ := Name.exists_mem_toString i
  refine ⟨c, ?_, Name.isDigit_of_mem_toString hc⟩
  rw [toList_batchName]
  exact List.mem_append_left _ hc

theorem batchName_inj (h : batchName i = batchName j) : i = j := by
  have hl := congrArg String.toList h
  rw [toList_batchName, toList_batchName] at hl
  exact Name.toString_inj (String.toList_inj.1 (List.append_cancel_right hl))

theorem contains_of_freeFrom (h : contains a (batchName (freeFrom a i left)) = true) :
    ∀ j, i ≤ j → j ≤ i + left → contains a (batchName j) = true := by
  induction left generalizing i
  case zero         =>
    intro j hi hj
    rwa [Nat.le_antisymm hj hi]
  case succ left hi =>
    rw [freeFrom] at h
    split at h
    case isFalse hc => exact absurd h hc
    case isTrue hc  =>
      intro j hij hj
      by_cases hx : j = i
      case pos => rwa [hx]
      case neg => exact hi h j (by omega) (by omega)

theorem not_contains_freshName (h : ∀ n, contains a n = true → n ∈ names a) :
    contains a (freshName a) = false := by
  rw [← Bool.not_eq_true, freshName]
  intro hc
  have hall := contains_of_freeFrom hc
  let taken := (List.range' (names a).length ((names a).length + 1)).map batchName
  have hn : taken.Nodup := List.Nodup.map (fun _ _ => batchName_inj) List.nodup_range'
  have hs : taken ⊆ names a := by
    intro n hm
    obtain ⟨j, hj, rfl⟩ := List.mem_map.1 hm
    rw [List.mem_range'_1] at hj
    exact h _ (hall j hj.1 (by omega))
  have hl := (hn.subperm hs).length_le
  rw [List.length_map, List.length_range'] at hl
  omega

end

namespace Deposit

variable {σ : Type} [Archive σ] {a : σ} {batch : Bytes} {i left : Nat}

theorem exists_steps_probing (batch : Bytes)
    (h : contains a (batchName (freeFrom a i left)) = false) :
    ∃ k, steps batch k a (probing i) = (a, writing (batchName (freeFrom a i left))
      (begin (batchName (freeFrom a i left))) (.ofBytes batch)) := by
  induction left generalizing i
  case zero         => exact ⟨1, by simp_all [steps, step, freeFrom]⟩
  case succ left hi =>
    rw [freeFrom] at h ⊢
    split at h
    case isFalse hc => exact ⟨1, by simp [steps, step, hc]⟩
    case isTrue hc  =>
      obtain ⟨k, hk⟩ := hi h
      exact ⟨k + 1, by simpa [steps, step, hc] using hk⟩

theorem exists_steps_writing (name : String) (a : σ) (w : Write σ) (source : Source) :
    ∃ k, steps batch k a (writing name w source) =
      ((settle a w source).2.1, done ((settle a w source).1.map fun _ => name)) := by
  fun_induction writeOn a w source []
  case case1 c hr                      =>
    exact ⟨1, by simp [steps, step, hr, settle_done hr]⟩
  case case2 hr next hi                =>
    obtain ⟨k, hk⟩ := hi
    exact ⟨k + 1, by simpa [steps, step, hr, settle_turn hr] using hk⟩
  case case3 n hr x source' hs next hi =>
    obtain ⟨k, hk⟩ := hi
    exact ⟨k + 1, by simpa [steps, step, hr, hs, settle_input hr hs] using hk⟩

theorem steps_add (batch : Bytes) (j k : Nat) (a : σ) (c : Deposit σ) :
    steps batch (j + k) a c = steps batch k (steps batch j a c).1 (steps batch j a c).2 := by
  induction j generalizing a c
  case zero      => rw [Nat.zero_add]; rfl
  case succ j hi => rw [Nat.succ_add, steps, steps, hi]

-- A call that has the archive to itself does what `storeBatch` does.
theorem exists_steps (h : ∀ n, contains a n = true → n ∈ names a) (batch : Bytes) :
    ∃ k, steps batch k a counting =
      ((storeBatch a batch).value.2, done (storeBatch a batch).value.1) := by
  obtain ⟨j, hj⟩ := exists_steps_probing batch (not_contains_freshName h)
  obtain ⟨k, hk⟩ := exists_steps_writing (freshName a) a (begin (freshName a)) (.ofBytes batch)
  refine ⟨j + k + 1, ?_⟩
  rw [steps]
  simp only [step]
  rw [steps_add, hj]
  exact hk

end Deposit
end BitPacking.Archive
