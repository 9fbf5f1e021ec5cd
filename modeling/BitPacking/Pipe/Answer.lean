import BitPacking.Pipe

namespace BitPacking

namespace Pipe

-- What a read of a pipe is to the reader of a source; `none` is a read that has to wait.
def answer (p : Pipe) (n : Nat) : Option Source.Answer × Pipe :=
  match p.read n with
  | (.error .wouldBlock, p) => (none, p)
  | (.error e, p) => (some (.failure e), p)
  | (.ok [], p) => (some .endOfInput, p)
  | (.ok bytes, p) => (some (.data bytes), p)

theorem answer_data_weight_lt {p p' : Pipe} {n : Nat} {bytes : Bytes}
    (h : p.answer n = (some (.data bytes), p')) : p'.weight < p.weight := by
  simp only [answer] at h
  split at h <;> cases h
  next hb h => exact read_weight_lt h (by simpa using hb)

theorem answer_weight_le {p p' : Pipe} {n : Nat} {a : Option Source.Answer}
    (h : p.answer n = (a, p')) : p'.weight ≤ p.weight := by
  simp only [answer] at h
  split at h <;> cases h
  all_goals next h => exact read_weight_le h

theorem answer_weight_lt {p p' : Pipe} {n : Nat} {a : Source.Answer}
    (h : p.answer n = (some a, p')) (ha : ¬ a.Final) : p'.weight < p.weight := by
  cases a with
  | data bytes => exact answer_data_weight_lt h
  | interrupted => simp only [answer] at h; split at h <;> cases h
  | endOfInput | failure => exact absurd trivial ha

end Pipe

end BitPacking
