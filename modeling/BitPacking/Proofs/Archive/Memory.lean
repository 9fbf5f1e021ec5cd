import BitPacking.Archive.Memory
import BitPacking.Proofs.Archive.EntryEncoder.Discipline
import BitPacking.Proofs.Archive.EntryEncoder.Trace
import BitPacking.Proofs.Archive.Seal

namespace BitPacking.Archive.Memory

open EntryEncoder (Progress)

variable [Compression]

def Write.Untold : Write → Prop
  | validating _ | sealing .. | done (.error _) => True
  | storing .. | done (.ok _)                   => False

theorem stages : EntryEncoder.Stages (σ := Memory) Write.Untold (fun _ => True)
    fun c => ∀ n, c ≠ .returned (.ok n) where
  begin _               := trivial
  known _ _             := trivial
  turn_known _ _ _ _    := trivial
  feed_known _ _ _ _ _ _ := trivial
  turn m w hr hw        := by
    cases w
    case validating name =>
      simp only [Archive.turn, Memory.turn, Logged.value_pure]
      split
      all_goals trivial
    case storing         => cases hw
    case sealing         => cases hr
    case done            => cases hr
  feed m w n x hr hw hx := by
    cases w
    case sealing name sealed s =>
      cases x
      case endOfInput =>
        cases hr
        exact absurd (hx rfl) (by decide)
      all_goals trivial
    all_goals cases hr
  done w c hr hw n      := by
    cases w
    case done outcome =>
      cases outcome
      case error e => cases hr; simp
      case ok n    => cases hw
    all_goals cases hr

theorem atomic : EntryEncoder.Atomic (σ := Memory) Write.Untold (fun _ => True)
    fun c => ∀ n, c ≠ .returned (.ok n) where
  stages           := stages
  failing _ h      := h
  feed _ _ _ _ _ _ := .refl _
  turn m w hr _    := by
    cases w
    case validating name =>
      refine .inl ?_
      simp only [Archive.turn, Memory.turn, Logged.value_pure]
      split
      all_goals exact .refl _
    case storing         => exact .inr ⟨_, rfl⟩
    case sealing         => cases hr
    case done            => cases hr

-- A write that has sealed what came in some pieces.
def Write.Sealing (name : String) (got : List Bytes) (w : Write) : Prop :=
  ∃ sealed, w = .sealing name sealed (Seal.after got).2 ∧
    sealed.reverse.flatten = (Seal.after got).1

namespace Write.Sealing

variable {name : String} {got : List Bytes} {w : Write}

theorem nil (name : String) : Write.Sealing name [] (.sealing name [] {}) :=
  ⟨[], rfl, rfl⟩

theorem request (h : w.Sealing name got) : w.request = .input Bytes.blockSize := by
  obtain ⟨_, rfl, _⟩ := h
  rfl

theorem interrupted (h : w.Sealing name got) : w.feed .interrupted = w := by
  obtain ⟨_, rfl, _⟩ := h
  rfl

theorem data (h : w.Sealing name got) (bytes : Bytes) :
    (w.feed (.data bytes)).Sealing name (got ++ [bytes]) := by
  obtain ⟨sealed, rfl, hs⟩ := h
  refine ⟨((Seal.after got).2.write bytes).1 :: sealed, ?_, ?_⟩
  · rw [feed, Seal.after_append]
  · rw [List.reverse_cons, List.flatten_append, hs, List.flatten_singleton, Seal.after_append]

theorem endOfInput (h : w.Sealing name got) :
    w.feed .endOfInput = .storing name (Seal.ofPieces got) got.flatten.length := by
  obtain ⟨sealed, rfl, hs⟩ := h
  have hf : ((Seal.after got).2.finish :: sealed).reverse.flatten = Seal.ofPieces got := by
    rw [List.reverse_cons, List.flatten_append, hs, List.flatten_singleton, Seal.ofPieces]
  rw [feed, hf, Seal.length_after]

theorem failure (h : w.Sealing name got) (e : IoError) :
    w.feed (.failure e) = .done (.error (.io e)) := by
  obtain ⟨_, rfl, _⟩ := h
  rfl

end Write.Sealing

def Write.Of (name : String) : Write → Prop
  | validating n | sealing n _ _ | storing n _ _ => n = name
  | done _                                       => True

-- How far a write has come with what it was given.
inductive Write.At (name : String) : Progress → Write → Prop
  | validating (h : Name.validate name = .ok ()) :
      At name (.taking []) (.validating name)
  | sealing {got : Bytes} {sealed : List Bytes} {s : Seal}
      (h : s.Sealed got sealed.reverse.flatten) :
      At name (.taking got) (.sealing name sealed s)
  | storing {content sealed : Bytes} (h : Seal.contentOf name sealed = .ok content) :
      At name (.given content) (.storing name sealed content.length)
  | lost {w : Write} (h : w.Of name) :
      At name .lost w

variable {name : String} {m m' : Memory} {p p' : Progress} {w : Write}

theorem Write.At.of (h : w.At name p) : w.Of name := by
  cases h
  case lost h => exact h
  all_goals rfl

theorem stored?_eq (h : m'.entries.get? name = m.entries.get? name) :
    stored? m' name = stored? m name := by
  refine stored?_congr ?_ fun _ => ?_
  · simp only [Archive.contains, h]
  · simp only [Archive.read, Memory.read, h]

theorem get?_turn (h : w.Of name) {n : String} (hn : n ≠ name) :
    (m.turn w).1.entries.get? n = m.entries.get? n := by
  cases w
  case validating => simp only [turn]; split <;> rfl
  case storing    =>
    cases h
    simp only [turn, Table.get?_insert, if_neg hn]
  all_goals rfl

theorem of_turn (h : w.Of name) : (m.turn w).2.Of name := by
  cases w
  case validating => simp only [turn]; split <;> trivial
  case storing    => trivial
  all_goals exact h

theorem of_feed (h : w.Of name) (x : Source.Answer) : (w.feed x).Of name := by
  cases w
  case sealing => cases x <;> first | exact h | trivial
  all_goals exact h

theorem stored?_insert (m : Memory) (name : String) (sealed : Bytes) :
    stored? ({ entries := m.entries.insert name sealed } : Memory) name =
      some (Seal.contentOf name sealed) := by
  simp [stored?, Archive.contains, Archive.read, Memory.read]

theorem at_turn (m : Memory) (h : w.At name p) (hq : w.request = .turn) :
    p.Turned (fun p _ w => Write.At name p w) name (m.turn w).1 (m.turn w).2 := by
  cases h
  case validating hv => simp only [turn, hv]; exact .sealing Seal.sealed_nil
  case sealing       => cases hq
  case storing hs    => exact ⟨rfl, (stored?_insert m name _).trans (congrArg some hs)⟩
  case lost ho       => exact .lost (of_turn ho)

section Lossless

variable [Compression.Lossless]

theorem at_feed (h : w.At name p) {n : Nat} (hq : w.request = .input n) {x : Source.Answer}
    (hx : p.Fed x p') : (w.feed x).At name p' := by
  cases hx
  case lost  => exact .lost (of_feed h.of x)
  case data bytes =>
    cases h
    case validating => cases hq
    case sealing hs =>
      refine .sealing ?_
      rw [List.reverse_cons, List.flatten_append, List.flatten_singleton]
      exact hs.write bytes
  case ended =>
    cases h
    case validating => cases hq
    case sealing hs =>
      have hc := hs.contentOf name
      simp only [Write.feed, hs.length]
      exact .storing (by simpa using hc)

def discipline : EntryEncoder.Discipline Memory where
  Plain name       := Name.validate name = .ok ()
  Ready _ _        := True
  At name p _ w    := w.At name p
  Apart name m m'  := ∀ n ≠ name, m'.entries.get? n = m.entries.get? n
  fresh _          := 1
  less _ _         := trivial
  begin _ h        := ⟨.validating h, Nat.le_refl 1⟩
  asks h           := by
    cases h
    case validating => exact .inl rfl
    case sealing    => exact .inr ⟨Bytes.blockSize, by decide, rfl⟩
  ends h           := by
    cases h
    rfl
  lose h           := .lost h.of
  turn h hq _      := ⟨trivial, fun _ hn => get?_turn h.of hn, at_turn _ h hq⟩
  feed h hq hx _   := ⟨trivial, fun _ _ => rfl, at_feed h hq hx⟩
  stays _ _ _ h    := h
  entry ha _ n hn  := stored?_eq (ha n hn)

end Lossless

end BitPacking.Archive.Memory
