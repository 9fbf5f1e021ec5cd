import BitPacking.Archive.Basic
import BitPacking.Archive.Name
import BitPacking.Stream.Encoder

namespace BitPacking.Archive

inductive Drain (σ : Type) [Archive σ]
  | running (w : Write σ)
  | ended (c : Completion Nat)
  | joined

-- The encoder holds the writer of the pipe, and beside it an abort handle, so that the drain cannot
-- take the loss of the writer for the end of the input before the caller has decided that.
structure EntryEncoder (σ : Type) [Archive σ] where
  name : String
  encoder : Stream.Encoder
  pipe : Pipe
  drain : Drain σ

namespace EntryEncoder

variable {σ : Type} [Archive σ]

-- Sets up the encoding of an entry. The drain bears the name of the entry, which can fail badly
-- where that contains a NUL.
def create (name : String) (maxValue : UInt64) (containsZero : Bool) :
    Logged (Completion (EntryEncoder σ)) := do
  match ← Stream.Encoder.new maxValue containsZero with
  | .error e => return .returned (.error e)
  | .ok encoder =>
    match Name.validate name with
    | .error e => return .returned (.error e)
    | .ok _ =>
      if name.toList.contains '\x00' then
        return .crashed
      else
        let pipe := { Pipe.ofCapacity Pipe.defaultCapacity with handles := 1 }
        return .returned (.ok { name, encoder, pipe, drain := .running (begin name) })

def isLive (e : EntryEncoder σ) : Bool :=
  match e.drain with
  | .joined => false
  | _ => true

end EntryEncoder

namespace Drain

variable {σ : Type} [Archive σ]

def rank : Drain σ → Nat
  | running w => Archive.rank w + 1
  | _ => 0

end Drain

namespace EntryEncoder

variable {σ : Type} [Archive σ]

-- A step of the drain at the archive; `none` where it is over or has to wait, which the pipe
-- remembers. The reader of the pipe goes with the drain.
def drainStep (s : σ) (e : EntryEncoder σ) : Logged (Option σ × EntryEncoder σ) :=
  match e.drain with
  | .running w =>
    match request w with
    | .done c => pure (some s, { e with drain := .ended c, pipe := e.pipe.dropReader })
    | .turn => do
      let (s, w) ← turn s w
      return (some s, { e with drain := .running w })
    | .input n =>
      match e.pipe.answer n with
      | (none, pipe) => pure (none, { e with pipe })
      | (some a, pipe) =>
        let (s, w) := feed s w a
        pure (some s, { e with pipe, drain := .running w })
  | _ => pure (none, e)

theorem drainStep_lt {s s' : σ} {e e' : EntryEncoder σ} {events : List Event}
    (h : drainStep s e = ⟨(some s', e'), events⟩) :
    Prod.Lex (· < ·) (· < ·) (e'.pipe.weight, e'.drain.rank) (e.pipe.weight, e.drain.rank) := by
  simp only [drainStep] at h
  split at h
  · next w hw =>
    split at h
    · cases h
      simp only [hw, Drain.rank]
      rcases Nat.eq_zero_or_pos e.pipe.weight with h0 | h0
      · rw [h0]
        exact .right _ (Nat.succ_pos _)
      · exact .left _ _ h0
    · next hr =>
      cases h
      simp only [hw, Drain.rank]
      exact .right _ (Nat.succ_lt_succ (rank_turn_lt s w hr))
    · next n hr =>
      split at h
      · cases h
      · next a pipe ha =>
        cases h
        simp only [hw, Drain.rank]
        rcases Nat.lt_or_eq_of_le (Pipe.answer_weight_le ha) with hlt | heq
        · exact .left _ _ hlt
        · rw [heq]
          refine .right _ (Nat.succ_lt_succ (rank_feed_lt s w _ a hr ?_))
          exact Classical.byContradiction fun hf =>
            absurd heq (Nat.ne_of_lt (Pipe.answer_weight_lt ha hf))
  · cases h

def settleOn (s : σ) (e : EntryEncoder σ) (past : List Event) : Logged (σ × EntryEncoder σ) :=
  match _h : drainStep s e with
  | ⟨(some s', e'), events⟩ => settleOn s' e' (events.reverse ++ past)
  | ⟨(none, e'), events⟩ => ⟨(s, e'), past.reverse ++ events⟩
termination_by (e.pipe.weight, e.drain.rank)
decreasing_by exact drainStep_lt ‹_›

def settle (s : σ) (e : EntryEncoder σ) : Logged (σ × EntryEncoder σ) :=
  settleOn s e []

end EntryEncoder
end BitPacking.Archive
