import BitPacking.Stream.Encoder
import BitPacking.Stream.Reception

namespace BitPacking.Stream

structure Relay where
  encoder : Encoder
  pipe : Pipe
  values : List UInt64
  pushed : Option (Except Error Unit) := none
  finished : Option (Except Error Unit) := none
  consumer : Reception

namespace Relay

def new (encoder : Encoder) (capacity : Nat) (containsZero : Bool) (values : List UInt64) : Relay :=
  { encoder, values
    pipe := .ofCapacity capacity
    consumer := .new containsZero }

def left (r : Relay) : Nat :=
  r.values.length + (if r.pushed.isNone then 1 else 0) + (if r.finished.isNone then 1 else 0)

-- The next step of the producer, unless it is done or has to wait: it pushes the values up to the
-- first that fails, and then finishes the stream.
def produce (r : Relay) : Option (Logged Relay) :=
  match r.pushed, r.values, r.finished with
  | none, value :: values, _ =>
    match r.encoder.push r.pipe value with
    | ⟨(.error (.io .wouldBlock), _), _⟩ => none
    | ⟨(.ok _, encoder, pipe), events⟩ => some ⟨{ r with encoder, pipe, values }, events⟩
    | ⟨(.error e, encoder, pipe), events⟩ =>
      some ⟨{ r with encoder, pipe, values := [], pushed := some (.error e) }, events⟩
  | none, [], _ => some (pure { r with pushed := some (.ok ()) })
  | some _, _, none =>
    match r.encoder.finish r.pipe with
    | (.error (.io .wouldBlock), _) => none
    | (outcome, encoder, pipe) => some (pure { r with encoder, pipe, finished := some outcome })
  | some _, _, some _ => none

def settle (r : Relay) : Relay :=
  let (consumer, pipe) := r.consumer.settle r.pipe
  { r with consumer, pipe }

theorem left_produce {r : Relay} {r' : Logged Relay} (h : r.produce = some r') :
    r'.value.left < r.left := by
  simp only [produce] at h
  split at h
  · next hv hp =>
    split at h
    · cases h
    · cases h; simp [left, hp, hv]
    · cases h; simp [left, hp, hv]
  · next hp hv => cases h; simp [left, hp, hv]
  · next hp hf =>
    split at h
    · cases h
    · cases h; simp [left, hf]
  · cases h

-- Runs both ends, after the events in `past`, the latest first. The consumer goes on whenever the
-- producer has to wait, and at the end.
def runOn (r : Relay) (past : List Event) : Logged Relay :=
  match _h : r.produce with
  | some ⟨r', events⟩ => runOn r' (events.reverse ++ past)
  | none =>
    match _h : r.settle.produce with
    | some ⟨r', events⟩ => runOn r' (events.reverse ++ past)
    | none => ⟨r.settle, past.reverse⟩
termination_by r.left
decreasing_by
  · exact left_produce _h
  · exact left_produce _h

def run (r : Relay) : Logged Relay :=
  r.runOn []

end Relay
end BitPacking.Stream
