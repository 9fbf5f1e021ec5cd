import BitPacking.Pipe

namespace BitPacking.Pipe

inductive Ending
  | close
  | abort
deriving DecidableEq, Repr

structure Transfer where
  pipe : Pipe
  chunks : List Bytes
  -- How the producer is to end the input; `none` once it has.
  ending : Option Ending
  written : List (Except IoError Nat) := []

namespace Transfer

def left (t : Transfer) : Nat :=
  t.chunks.length + if t.ending.isSome then 1 else 0

def produce (t : Transfer) : Option Transfer :=
  match t.chunks, t.ending with
  | chunk :: chunks, _ =>
    match t.pipe.write chunk with
    | (.error .wouldBlock, _) => none
    | (outcome, pipe) => some { t with pipe, chunks, written := outcome :: t.written }
  | [], some .close => some { t with pipe := t.pipe.close, ending := none }
  | [], some .abort => do return { t with pipe := ← t.pipe.abort, ending := none }
  | [], none => none

theorem left_produce {t t' : Transfer} (h : t.produce = some t') : t'.left < t.left := by
  simp only [produce] at h
  split at h
  · next hc =>
    split at h
    · cases h
    · cases h; simp [left, hc]
  · next hc he => cases h; simp [left, hc, he]
  · next hc he =>
    simp only [bind, Option.bind_eq_some_iff] at h
    obtain ⟨pipe, -, h⟩ := h
    cases h; simp [left, hc, he]
  · cases h

-- A read of the consumer, for which the producer goes on as long as it would have to wait.
def read (t : Transfer) (n : Nat) : Except IoError Bytes × Transfer :=
  match t.pipe.read n with
  | (.error .wouldBlock, pipe) =>
    match _h : { t with pipe }.produce with
    | some t => read t n
    | none => (.error .wouldBlock, { t with pipe })
  | (outcome, pipe) => (outcome, { t with pipe })
termination_by t.left
decreasing_by simpa [left] using left_produce _h

def readEach (t : Transfer) (past : List (Except IoError Bytes)) :
    List Nat → List (Except IoError Bytes) × Transfer
  | [] => (past.reverse, t)
  | n :: sizes =>
    let (outcome, t) := t.read n
    let past := outcome :: past
    match outcome with
    | .error _ => (past.reverse, t)
    | .ok bytes =>
      if bytes = [] ∧ n ≠ 0 then (past.reverse, t) else readEach t past sizes

-- Each round of buffers but the last gets a byte, so there are no more rounds than bytes, and one.
def run (t : Transfer) (sizes : List Nat) : List (Except IoError Bytes) × Transfer :=
  t.readEach [] (List.replicate (t.chunks.flatten.length + 1) sizes).flatten

def new (capacity : Nat) (chunks : List Bytes) (ending : Ending) : Transfer :=
  { pipe := .ofCapacity capacity, chunks, ending := some ending }

end Transfer
end BitPacking.Pipe
