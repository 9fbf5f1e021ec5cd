import BitPacking.Proofs.Bits.Cursor
import Mathlib.Data.Set.Defs

namespace BitPacking.Bits

inductive Step
  | put (element : UInt64) (width : Nat)
  | takeComplete

namespace Step

def width : Step → Nat
  | put _ width => width
  | takeComplete => 0

def digits : Step → List Bool
  | put element width => Bits.digits width element.toNat
  | takeComplete => []

end Step

def Writer.step (w : Writer) : Step → Bytes × Writer
  | .put element width => ([], w.put element width)
  | .takeComplete => w.takeComplete

def Writer.run (w : Writer) : List Step → Bytes × Writer
  | [] => ([], w)
  | s :: steps =>
    let (taken, w) := w.step s
    let (more, w) := w.run steps
    (taken ++ more, w)

def Cursor.step? (c : Cursor) : Step → Option (Bytes × Cursor)
  | .put element width => do return ([], ← c.put? element width)
  | .takeComplete => c.takeComplete?

def Cursor.run? (c : Cursor) : List Step → Option (Bytes × Cursor)
  | [] => some ([], c)
  | s :: steps => do
    let (taken, c) ← c.step? s
    let (more, c) ← c.run? steps
    return (taken ++ more, c)

variable {w : Writer} {steps : List Step}

theorem Writer.digits_step (w : Writer) (s : Step) :
    Bytes.digits (w.step s).1 ++ (w.step s).2.digits = w.digits ++ s.digits := by
  cases s
  case put element width => exact w.digits_put element width
  case takeComplete      => exact w.digits_takeComplete.trans (List.append_nil _).symm

theorem Writer.digits_run (w : Writer) (steps : List Step) :
    Bytes.digits (w.run steps).1 ++ (w.run steps).2.digits =
      w.digits ++ steps.flatMap Step.digits := by
  induction steps generalizing w
  case nil              => exact (List.append_nil _).symm
  case cons s steps hi =>
    rw [run, Bytes.digits_append, List.append_assoc, hi, ← List.append_assoc, digits_step,
      List.append_assoc, ← List.flatMap_cons]

theorem Cursor.ofWriter_ofBytes (bytes : Bytes) :
    ofWriter (.ofBytes bytes) = { bytes := bytes } := by
  simp [ofWriter, Writer.bytes, Writer.freeBits, Writer.ofBytes]

theorem Cursor.step?_ofWriter (w : Writer) {s : Step} (h : s.width ≤ 64) :
    (ofWriter w).step? s = some ((w.step s).1, ofWriter (w.step s).2) := by
  cases s
  case put element width =>
    have hw : width ≤ 64 := h
    rw [step?, put?_ofWriter w element hw]
    rfl
  case takeComplete      => exact takeComplete?_ofWriter w

theorem Cursor.run?_ofWriter (w : Writer) (h : ∀ s ∈ steps, s.width ≤ 64) :
    (ofWriter w).run? steps = some ((w.run steps).1, ofWriter (w.run steps).2) := by
  induction steps generalizing w
  case nil             => rfl
  case cons s steps hi =>
    obtain ⟨hs, hr⟩ := List.forall_mem_cons.1 h
    rw [run?, step?_ofWriter w hs]
    simp only [bind, Option.bind, hi (w.step s).2 hr]
    rfl

namespace Writer

theorem freeBits_eq (w : Writer) : w.freeBits = (8 - w.digits.length % 8) % 8 := by
  have hlt := w.used_lt
  rw [length_digits, Nat.mul_add_mod, Nat.mod_eq_of_lt hlt, freeBits]

theorem bytes_ne_nil (h : w.freeBits ≠ 0) : w.bytes ≠ [] := by
  have hu : w.used ≠ 0 := mt freeBits_eq_zero_iff.2 h
  simp [bytes, hu]

theorem mod_freeBits_of_getLast? {b : UInt8} (h : w.bytes.getLast? = some b) :
    b.toNat % 2 ^ w.freeBits = 0 := by
  by_cases hu : w.used = 0
  case pos =>
    rw [freeBits_eq_zero_iff.2 hu]
    exact Nat.mod_one _
  case neg =>
    have hb : UInt8.ofNat (w.tail <<< w.freeBits) = b := by simpa [bytes, hu] using h
    have hdvd : 2 ^ w.freeBits ∣ 2 ^ 8 := Nat.pow_dvd_pow 2 w.freeBits_lt.le
    rw [← hb, UInt8.toNat_ofNat', Nat.mod_mod_of_dvd _ hdvd, Nat.shiftLeft_eq]
    exact Nat.mul_mod_left ..

def puts (w : Writer) (elements : List (UInt64 × Nat)) : Writer :=
  elements.foldl (fun w (element, width) => w.put element width) w

-- No elements that are still to come change the byte.
def Settled (w : Writer) (i : Nat) : Prop :=
  ∀ elements : List (UInt64 × Nat), (∀ e ∈ elements, e.2 ≤ 64) →
    (w.puts elements).bytes[i]? = w.bytes[i]?

theorem whole_prefix_bytes_puts (w : Writer) (elements : List (UInt64 × Nat)) :
    w.whole.toList <+: (w.puts elements).bytes := by
  induction elements generalizing w
  case nil             => exact List.prefix_append ..
  case cons e elements hi =>
    have hput : w.whole.toList <+: (w.put e.1 e.2).whole.toList := by simp [put]
    exact hput.trans (hi (w.put e.1 e.2))

theorem settled_of_lt {i : Nat} (h : i < w.completeLength) : w.Settled i := by
  intro elements _
  obtain ⟨more, hm⟩ := w.whole_prefix_bytes_puts elements
  have hi : i < w.whole.toList.length := by rwa [Array.length_toList]
  rw [← hm, bytes, List.getElem?_append_left hi, List.getElem?_append_left hi]

-- A single one is put where there were zeros, or nothing yet.
theorem bytes_put_one_ne (w : Writer) : (w.put 1 1).bytes ≠ w.bytes := by
  intro hb
  have hd := (w.put 1 1).digits_bytes
  rw [hb, w.digits_bytes, digits_put, List.append_assoc, List.append_cancel_left_eq] at hd
  have hmem : true ∈ List.replicate w.freeBits false := by
    rw [hd]
    exact List.mem_append_left _ (by decide)
  cases List.eq_of_mem_replicate hmem

theorem settled_iff {i : Nat} (hi : i < w.bytes.length) : w.Settled i ↔ i < w.completeLength := by
  refine ⟨fun h => ?_, settled_of_lt⟩
  by_contra hc
  have hlt := w.used_lt
  have hu : w.used ≠ 0 := by
    intro hu
    rw [length_bytes, length, if_pos hu] at hi
    exact hc hi
  have hlen : w.bytes.length = w.completeLength + 1 := by
    rw [length_bytes, length, if_neg hu]
    rfl
  have hlen' : (w.put 1 1).bytes.length = w.completeLength + 1 := by
    have hp := w.put_length 1 1
    have hlt' := (w.put 1 1).used_lt
    rw [length_bytes, length, completeLength]
    split
    all_goals omega
  refine w.bytes_put_one_ne (List.ext_getElem? fun j => ?_)
  rcases Nat.lt_trichotomy j i with hj | rfl | hj
  · exact settled_of_lt (by omega) [(1, 1)] (by decide)
  · exact h [(1, 1)] (by decide)
  · rw [List.getElem?_eq_none (by omega), List.getElem?_eq_none (by omega)]

end Writer

-- How a writer stands, and what was taken out of it, after steps that started behind some bytes.
structure Text (front : Bytes) (steps : List Step) (taken : Bytes) (w : Writer) : Prop where
  digits   : Bytes.digits (taken ++ w.bytes) = Bytes.digits front ++ steps.flatMap Step.digits ++
    List.replicate w.freeBits false
  freeBits : w.freeBits = (8 - (steps.flatMap Step.digits).length % 8) % 8
  held     : w.freeBits ≠ 0 → w.bytes ≠ []
  zeros    : ∀ b, w.bytes.getLast? = some b → b.toNat % 2 ^ w.freeBits = 0
  settled  : {i | i < w.bytes.length ∧ w.Settled i} = {i | i < w.completeLength}

-- All steps with elements of up to 64 bits can be taken, whatever comes in front of them.
theorem text_of_run (front : Bytes) (h : ∀ s ∈ steps, s.width ≤ 64) :
    ∃ taken w, (Writer.ofBytes front).run steps = (taken, w) ∧ Text front steps taken w ∧
      Cursor.run? { bytes := front } steps = some (taken, .ofWriter w) ∧
      (Cursor.ofWriter w).completeLength? = some w.completeLength := by
  rcases hr : (Writer.ofBytes front).run steps with ⟨taken, w⟩
  have hdigits := (Writer.ofBytes front).digits_run steps
  have hrun := Cursor.run?_ofWriter (Writer.ofBytes front) h
  rw [hr, Writer.digits_ofBytes] at hdigits
  rw [hr, Cursor.ofWriter_ofBytes] at hrun
  refine ⟨taken, w, rfl, ⟨?_, ?_, Writer.bytes_ne_nil, ?_, ?_⟩, hrun,
    Cursor.completeLength?_ofWriter w⟩
  · rw [Bytes.digits_append, w.digits_bytes, ← List.append_assoc, hdigits]
  · have hl := congrArg List.length hdigits
    simp only [List.length_append, Bytes.length_digits] at hl
    rw [w.freeBits_eq]
    omega
  · exact fun b => Writer.mod_freeBits_of_getLast?
  · ext i
    refine ⟨fun ⟨hi, hs⟩ => (Writer.settled_iff hi).1 hs, fun hi => ⟨?_, Writer.settled_of_lt hi⟩⟩
    rw [Writer.length_bytes]
    exact Nat.lt_of_lt_of_le hi (Nat.le_add_right ..)

-- The widest elements, out of step with the bytes.
theorem text_of_run_wide :
    let steps := [.put 1 1, .put 0xFFFFFFFFFFFFFFFF 64, .takeComplete, .put 0 0, .put 1 63]
    let taken := [9, 255, 255, 255, 255, 255, 255, 255, 255]
    (∀ s ∈ steps, s.width ≤ 64) ∧ ∃ w, Text [9] steps taken w ∧
      Cursor.run? { bytes := [9] } steps = some (taken, .ofWriter w) ∧
      w.bytes = [128, 0, 0, 0, 0, 0, 0, 1] := by
  intro steps taken
  have hsteps : ∀ s ∈ steps, s.width ≤ 64 := by decide
  obtain ⟨taken', w, hr, ht, hc, -⟩ := text_of_run [9] hsteps
  have htaken : ((Writer.ofBytes [9]).run steps).1 = taken := by decide +kernel
  have hbytes : ((Writer.ofBytes [9]).run steps).2.bytes = [128, 0, 0, 0, 0, 0, 0, 1] := by
    decide +kernel
  rw [hr] at htaken hbytes
  obtain rfl : taken' = taken := htaken
  exact ⟨hsteps, w, ht, hc, hbytes⟩

end BitPacking.Bits
