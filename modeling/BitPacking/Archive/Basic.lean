import BitPacking.Batch.Decoder
import BitPacking.Pipe.Answer
import BitPacking.Stream.Decoder

namespace BitPacking

inductive Completion (α : Type)
  | returned (outcome : Except Error α)
  | crashed

namespace Completion

variable {α β : Type}

def map (f : α → β) : Completion α → Completion β
  | returned outcome => returned (outcome.map f)
  | crashed => crashed

end Completion

inductive Archive.Request
  | input (n : Nat)
  | turn
  | done (completion : Completion Nat)

class Archive (σ : Type) where
  Write : Type
  begin : String → Write
  request : Write → Archive.Request
  turn : σ → Write → Logged (σ × Write)
  feed : σ → Write → Source.Answer → σ × Write
  -- Bounds what a write can do without more input.
  rank : Write → Nat
  rank_turn_lt (s : σ) (w : Write) :
    request w = .turn → rank (turn s w).value.2 < rank w
  rank_feed_lt (s : σ) (w : Write) (n : Nat) (a : Source.Answer) :
    request w = .input n → a.Final → rank (feed s w a).2 < rank w
  read : σ → String → Except Error Bytes
  contains : σ → String → Bool
  names : σ → List String

namespace Archive

variable {σ τ : Type} [Archive σ] [Archive τ]

def writeOn (s : σ) (w : Write σ) (source : Source) (past : List Event) :
    Logged (Completion Nat × σ × Source) :=
  match _h : request w with
  | .done c => ⟨(c, s, source), past.reverse⟩
  | .turn =>
    let next := turn s w
    writeOn next.value.1 next.value.2 source (next.events.reverse ++ past)
  | .input n =>
    match _h : source.read n with
    | (a, source') =>
      let next := feed s w a
      writeOn next.1 next.2 source' past
termination_by (source.weight, rank w)
decreasing_by
  · exact .right _ (rank_turn_lt s w ‹_›)
  · rcases Nat.lt_or_eq_of_le (Source.read_weight_le ‹_›) with hlt | heq
    · exact .left _ _ hlt
    · rw [heq]
      refine .right _ (rank_feed_lt s w _ a ‹_› ?_)
      exact Classical.byContradiction fun ha =>
        absurd heq (Nat.ne_of_lt (Source.read_weight_lt ‹_› ha))

def write (s : σ) (name : String) (source : Source) : Logged (Completion Nat × σ × Source) :=
  writeOn s (begin name) source []

def batchName (i : Nat) : String :=
  s!"{i}.bin"

-- The least number from `i` on that has no entry, where `left` entries at most are in the way.
def freeFrom (s : σ) (i : Nat) : (left : Nat) → Nat
  | 0 => i
  | left + 1 => if contains s (batchName i) then freeFrom s (i + 1) left else i

def freshName (s : σ) : String :=
  let n := (names s).length
  batchName (freeFrom s n n)

def storeBatch (s : σ) (batch : Bytes) : Logged (Completion String × σ) := do
  let name := freshName s
  let (c, s, _) ← write s name (.ofBytes batch)
  return (c.map fun _ => name, s)

def copy (source : σ) (target : τ) (name newName : String) : Logged (Completion Bool × τ) := do
  if contains source name then
    match read source name with
    | .error e => return (.returned (.error e), target)
    | .ok content =>
      let (c, target, _) ← write target newName (.ofBytes content)
      return (c.map fun _ => true, target)
  else
    return (.returned (.ok false), target)

def openBatch (s : σ) (name : String) (containsZero : Bool) : Except Error Batch.Decoder := do
  (Batch.Decoder.ofSource (.ofBytes (← read s name)) containsZero).1

def decodeEntry (s : σ) (name : String) (containsZero : Bool) : Stream.Decoded :=
  match read s name with
  | .ok content => (Stream.decode (.ofBytes content) containsZero).1
  | .error e => ⟨[], some e⟩

end Archive
end BitPacking
