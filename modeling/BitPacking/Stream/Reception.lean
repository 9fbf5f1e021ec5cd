import BitPacking.Pipe.Answer
import BitPacking.Stream.Decoder

namespace BitPacking.Stream

inductive Reception
  | opening (source : Source) (containsZero : Bool) (n : Nat)
  | reading (d : Decoder) (past : List UInt64) (delivered n : Nat)
  | done (decoded : Decoded)

namespace Reception

def ofDecoder (d : Decoder) (past : List UInt64) (delivered : Nat) : Reception :=
  let stop := d.readOn past delivered
  match stop.source.starved with
  | some n => reading stop.decoder stop.past stop.delivered n
  | none => done stop.decoded

def ofSource (source : Source) (containsZero : Bool) : Reception :=
  let (decoder, after) := Decoder.ofSource source containsZero
  match after.starved, decoder with
  | some n, _ => opening source containsZero n
  | none, .ok d => ofDecoder d [] 0
  | none, .error e => done ⟨[], some e⟩

def new (containsZero : Bool) : Reception :=
  ofSource { answers := [], onward := .undecided } containsZero

def decoded? : Reception → Option Decoded
  | done decoded => some decoded
  | _ => none

def request? : Reception → Option Nat
  | opening _ _ n | reading _ _ _ n => some n
  | done _ => none

def feed (r : Reception) (a : Source.Answer) : Reception :=
  match r with
  | opening source containsZero _ =>
    let source := source.supply a
    if a.Final then done (decode source containsZero).1 else ofSource source containsZero
  | reading d past delivered _ =>
    let d := { d with reader := { d.reader with source := d.reader.source.supply a } }
    if a.Final then done (d.readOn past delivered).decoded else ofDecoder d past delivered
  | done decoded => done decoded

def rank : Reception → Nat
  | done _ => 0
  | _ => 1

theorem rank_feed_lt {r : Reception} {n : Nat} {a : Source.Answer} (h : r.request? = some n)
    (ha : a.Final) : (r.feed a).rank < r.rank := by
  cases r with
  | opening | reading => simp [feed, ha, rank]
  | done => cases h

-- A step at the pipe; `none` where decoding is done or has to wait, which the pipe remembers. What
-- is done lets go of the pipe.
def step (r : Reception) (p : Pipe) : Option Reception × Pipe :=
  match r.request? with
  | none => (none, p)
  | some n =>
    match p.answer n with
    | (none, p) => (none, p)
    | (some a, p) =>
      let r := r.feed a
      (some r, if r.decoded?.isSome then p.dropReader else p)

theorem step_lt {r r' : Reception} {p p' : Pipe} (h : r.step p = (some r', p')) :
    Prod.Lex (· < ·) (· < ·) (p'.weight, r'.rank) (p.weight, r.rank) := by
  simp only [step] at h
  split at h
  · cases h
  next n hn =>
    split at h
    · cases h
    next a p₁ ha =>
      cases h
      have hp :
          (if (r.feed a).decoded?.isSome then p₁.dropReader else p₁).weight ≤ p₁.weight := by
        split
        · simp [Pipe.dropReader, Pipe.weight]
        · exact Nat.le_refl _
      by_cases hf : a.Final
      · rcases Nat.lt_or_eq_of_le (Nat.le_trans hp (Pipe.answer_weight_le ha)) with hlt | heq
        · exact .left _ _ hlt
        · rw [heq]
          exact .right _ (rank_feed_lt hn hf)
      · exact .left _ _ (Nat.lt_of_le_of_lt hp (Pipe.answer_weight_lt ha hf))

def settle (r : Reception) (p : Pipe) : Reception × Pipe :=
  match _h : r.step p with
  | (some r', p') => settle r' p'
  | (none, p') => (r, p')
termination_by (p.weight, r.rank)
decreasing_by exact step_lt ‹_›

end Reception
end BitPacking.Stream
