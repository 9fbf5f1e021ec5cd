import BitPacking.Archive.Name
import Mathlib.Tactic.Common
import Mathlib.Data.List.Basic

namespace BitPacking.Archive.Name

-- Segments that lead nowhere.
def Idle (s : String) : Prop :=
  s = "" ∨ s = "."

instance (s : String) : Decidable (Idle s) :=
  inferInstanceAs (Decidable (_ ∨ _))

theorem go_of_not_mem {chars : List Char} (h : '/' ∉ chars) (past : List Char) :
    segments.go chars past = [.ofList (past.reverse ++ chars)] := by
  induction chars generalizing past
  case nil          => simp [segments.go]
  case cons c cs hi =>
    rw [List.mem_cons, not_or] at h
    rw [segments.go, if_neg (Ne.symm h.left), hi h.right]
    simp

theorem go_append {tail : List Char} (h : '/' ∉ tail) (chars past : List Char) :
    ∃ front last, segments.go chars past = front ++ [last] ∧
      segments.go (chars ++ tail) past = front ++ [last ++ .ofList tail] := by
  induction chars generalizing past
  case nil          =>
    refine ⟨[], .ofList past.reverse, rfl, ?_⟩
    rw [List.nil_append, go_of_not_mem h, String.ofList_append]
    rfl
  case cons c cs hi =>
    by_cases hc : c = '/'
    case pos =>
      have ⟨front, last, hf, hl⟩ := hi []
      refine ⟨.ofList past.reverse :: front, last, ?_, ?_⟩
      · rw [segments.go, if_pos hc, hf]
        rfl
      · rw [List.cons_append, segments.go, if_pos hc, hl]
        rfl
    case neg =>
      have ⟨front, last, hf, hl⟩ := hi (c :: past)
      refine ⟨front, last, ?_, ?_⟩
      · rw [segments.go, if_neg hc, hf]
      · rw [List.cons_append, segments.go, if_neg hc, hl]

theorem segments_append {suffix : String} (h : '/' ∉ suffix.toList) (name : String) :
    ∃ front last, segments name = front ++ [last] ∧
      segments (name ++ suffix) = front ++ [last ++ suffix] := by
  have ⟨front, last, hf, hl⟩ := go_append h name.toList []
  rw [String.ofList_toList] at hl
  refine ⟨front, last, hf, ?_⟩
  rw [segments, String.toList_append, hl]

theorem segments_of_not_mem {name : String} (h : '/' ∉ name.toList) : segments name = [name] := by
  rw [segments, go_of_not_mem h, List.reverse_nil, List.nil_append, String.ofList_toList]

theorem go_ne_nil (chars past : List Char) : segments.go chars past ≠ [] := by
  induction chars generalizing past
  case nil          => nofun
  case cons c cs hi =>
    rw [segments.go]
    split
    case isTrue  => nofun
    case isFalse => exact hi (c :: past)

theorem eq_of_segments {name s : String} (h : segments name = [s]) : name = s := by
  have hgo (chars past : List Char) (h : segments.go chars past = [s]) :
      s = .ofList (past.reverse ++ chars) := by
    induction chars generalizing past
    case nil          =>
      rw [segments.go] at h
      rw [List.append_nil]
      exact (List.cons.inj h).left.symm
    case cons c cs hi =>
      rw [segments.go] at h
      split at h
      case isTrue  => exact absurd (List.cons.inj h).right (go_ne_nil cs [])
      case isFalse =>
        rw [hi (c :: past) h]
        simp
  rw [hgo name.toList [] h, List.reverse_nil, List.nil_append, String.ofList_toList]

-- A valid name goes down once, and then nowhere.
theorem segments_of_valid {name : String} (h : validate name = .ok ()) :
    ∃ s rest, segments name = s :: rest ∧ ¬Idle s ∧ s ≠ ".." ∧ ∀ x ∈ rest, Idle x := by
  have hv : isValid name = true := by
    rw [validate] at h
    split at h
    case isTrue hv => exact hv
    case isFalse   => cases h
  rw [isValid, components] at hv
  match hs : segments name with
  | []        => simp [hs] at hv
  | s :: rest =>
    rw [hs] at hv
    simp only [components.first] at hv
    split at hv
    case h_2      => cases hv
    case h_1 n hn =>
      -- An empty segment in front, a dot or two of them would be a component that is no name.
      by_cases h₀ : s = ""
      case pos =>
        by_cases hr : rest.isEmpty
        · simp [h₀, List.isEmpty_iff.1 hr] at hn
        · simp [h₀, hr] at hn
      by_cases h₁ : s = "."
      case pos => simp [h₁] at hn
      by_cases h₂ : s = ".."
      case pos => simp [h₂, components.later] at hn
      have hi : ¬Idle s := not_or.2 ⟨h₀, h₁⟩
      simp only [h₀, h₁, h₂, components.later, if_false, or_self, List.cons_append,
        List.nil_append, List.cons.injEq, List.flatMap_eq_nil_iff] at hn
      refine ⟨s, rest, rfl, hi, h₂, fun x hx => ?_⟩
      by_contra hx'
      have hl := hn.right x hx
      rw [if_neg (show ¬(x = "" ∨ x = ".") from hx')] at hl
      split at hl
      all_goals cases hl

theorem validate_of_not_mem {name : String} (h : '/' ∉ name.toList) (hi : ¬Idle name)
    (hu : name ≠ "..") : validate name = .ok () := by
  have ⟨h₀, h₁⟩ := not_or.1 hi
  have hv : isValid name = true := by
    simp [isValid, components, segments_of_not_mem h, components.first, components.later, h₀, h₁,
      hu]
  rw [validate, if_pos hv]

theorem isDigit_of_mem_toString {n : Nat} {c : Char} (h : c ∈ (toString n).toList) :
    c.isDigit = true := by
  rw [Nat.toString_eq_ofList_toDigits, String.toList_ofList] at h
  exact Nat.isDigit_of_mem_toDigits (by decide) (by decide) h

theorem exists_mem_toString (n : Nat) : ∃ c, c ∈ (toString n).toList := by
  rw [Nat.toString_eq_ofList_toDigits, String.toList_ofList]
  exact List.exists_mem_of_ne_nil _ Nat.toDigits_ne_nil

theorem toString_inj {m n : Nat} (h : toString m = toString n) : m = n := by
  have hd := congrArg (fun s => Nat.ofDigitChars 10 s.toList 0) h
  simpa [Nat.toString_eq_ofList_toDigits] using hd

theorem not_idle_of_digit {s : String} {c : Char} (hc : c ∈ s.toList) (hd : c.isDigit = true) :
    ¬Idle s ∧ s ≠ ".." := by
  refine ⟨?_, ?_⟩
  · rintro (rfl | rfl)
    · cases hc
    · cases List.mem_singleton.1 hc
      cases hd
  · rintro rfl
    rcases List.mem_cons.1 hc with rfl | hc
    · cases hd
    · cases List.mem_singleton.1 hc
      cases hd

end BitPacking.Archive.Name
