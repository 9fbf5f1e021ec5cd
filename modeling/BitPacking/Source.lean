import BitPacking.Error

namespace BitPacking

namespace Source

inductive Answer
  | data (bytes : Bytes)
  | endOfInput
  | interrupted
  | failure (cause : IoError)
deriving DecidableEq, Repr

-- What every read gives once the answers are used up. Where that is undecided, more answers may
-- follow.
inductive Onward
  | ended
  | failing (cause : IoError)
  | undecided
deriving DecidableEq, Repr

end Source

structure Source where
  answers : List Source.Answer
  onward : Source.Onward := .ended
  requests : List Nat := []
  -- The buffer length of the first read that came when the next answer was undecided.
  starved : Option Nat := none
deriving DecidableEq, Repr

namespace Source

def ofBytes (bytes : Bytes) : Source :=
  { answers := [.data bytes] }

namespace Answer

def Final : Answer → Prop
  | endOfInput | failure _ => True
  | data _ | interrupted => False

def bytes : Answer → Bytes
  | data bytes => bytes
  | _ => []

end Answer

instance (a : Answer) : Decidable a.Final :=
  match a with
  | .endOfInput | .failure _ => .isTrue trivial
  | .data _ | .interrupted => .isFalse id

def supply (s : Source) : Answer → Source
  | .endOfInput => { s with onward := .ended }
  | .failure e => { s with onward := .failing e }
  | a => { s with answers := s.answers ++ [a] }

def size (s : Source) : Nat :=
  (s.answers.flatMap Answer.bytes).length

def weight (s : Source) : Nat :=
  s.size + s.answers.length

-- Data without a byte in it is no answer: to a reader it would look like the end.
def next (n : Nat) : List Answer → Option (Answer × List Answer)
  | [] => none
  | .data [] :: rest => next n rest
  | .data (b :: bs) :: rest => some (.data ((b :: bs).take n), .data ((b :: bs).drop n) :: rest)
  | a :: rest => some (a, rest)

def read (s : Source) (n : Nat) : Answer × Source :=
  let s := { s with requests := n :: s.requests }
  if n = 0 then
    (.endOfInput, s)
  else
    match next n s.answers, s.onward with
    | some (a, rest), _ => (a, { s with answers := rest })
    | none, .ended => (.endOfInput, s)
    | none, .failing e => (.failure e, s)
    | none, .undecided => (.failure .wouldBlock, { s with starved := s.starved <|> some n })

theorem next_bytes {n : Nat} {as rest : List Answer} {a : Answer}
    (h : next n as = some (a, rest)) :
    as.flatMap Answer.bytes = a.bytes ++ rest.flatMap Answer.bytes := by
  fun_induction next n as with
  | case1 => cases h
  | case2 rest' ih => simpa [Answer.bytes] using ih h
  | case3 b bs rest' =>
    cases h
    rw [List.flatMap_cons, List.flatMap_cons, ← List.append_assoc]
    simp only [Answer.bytes, List.take_append_drop]
  | case4 a' rest' hd hd' => cases h; rfl

theorem next_length {n : Nat} {as rest : List Answer} {a : Answer}
    (h : next n as = some (a, rest)) :
    rest.length ≤ as.length ∧ (a.bytes = [] → rest.length < as.length ∨ n = 0) := by
  fun_induction next n as with
  | case1 => cases h
  | case2 rest' ih => have := ih h; simp; omega
  | case3 b bs rest' => cases h; simp [Answer.bytes]
  | case4 a' rest' hd hd' => cases h; simp

theorem next_data_ne_nil {n : Nat} {as rest : List Answer} {bytes : Bytes} (hn : n ≠ 0)
    (h : next n as = some (.data bytes, rest)) : bytes ≠ [] := by
  fun_induction next n as with
  | case1 => cases h
  | case2 rest' ih => exact ih h
  | case3 b bs rest' => cases h; cases n <;> simp_all
  | case4 a' rest' hd hd' => cases h; cases bytes <;> simp_all

theorem read_size {s s' : Source} {n : Nat} {a : Answer} (h : s.read n = (a, s')) :
    s'.size + a.bytes.length = s.size := by
  simp only [read] at h
  split at h
  · cases h; simp [size, Answer.bytes]
  next hn =>
    split at h
    · next hnext => cases h; simp [size, next_bytes hnext, Nat.add_comm]
    all_goals cases h; simp [size, Answer.bytes]

theorem read_weight_le {s s' : Source} {n : Nat} {a : Answer} (h : s.read n = (a, s')) :
    s'.weight ≤ s.weight := by
  have hs := read_size h
  simp only [read] at h
  split at h
  · cases h; exact Nat.le_refl _
  next hn =>
    split at h
    · next hnext =>
      cases h
      have := (next_length hnext).1
      simp only [weight] at *; omega
    all_goals cases h; exact Nat.le_refl _

theorem read_weight_lt {s s' : Source} {n : Nat} {a : Answer} (h : s.read n = (a, s'))
    (ha : ¬ a.Final) : s'.weight < s.weight := by
  have hs := read_size h
  simp only [read] at h
  split at h
  · cases h; exact absurd trivial ha
  next hn =>
    split at h
    · next hnext =>
      cases h
      obtain ⟨hle, hlt⟩ := next_length hnext
      by_cases hb : a.bytes = []
      · have := hlt hb
        simp only [weight] at *; omega
      · have := List.length_pos_iff.2 hb
        simp only [weight] at *; omega
    all_goals cases h; exact absurd trivial ha

theorem read_data_ne_nil {s s' : Source} {n : Nat} {bytes : Bytes}
    (h : s.read n = (.data bytes, s')) : bytes ≠ [] := by
  simp only [read] at h
  split at h
  · cases h
  next hn =>
    split at h
    · next hnext => cases h; exact next_data_ne_nil hn hnext
    all_goals cases h

def readOn (s : Source) (n : Nat) : Answer × Source :=
  match _h : s.read n with
  | (.interrupted, s') => readOn s' n
  | (a, s') => (a, s')
termination_by s.weight
decreasing_by exact read_weight_lt ‹_› id

theorem readOn_size {s s' : Source} {n : Nat} {a : Answer} (h : s.readOn n = (a, s')) :
    s'.size + a.bytes.length = s.size := by
  fun_induction readOn s n with
  | case1 s s₁ hr ih => have := ih h; have := read_size hr; simp [Answer.bytes] at *; omega
  | case2 s a₁ s₁ _ hr => cases h; exact read_size hr

theorem readOn_data_ne_nil {s s' : Source} {n : Nat} {bytes : Bytes}
    (h : s.readOn n = (.data bytes, s')) : bytes ≠ [] := by
  fun_induction readOn s n with
  | case1 s s₁ hr ih => exact ih h
  | case2 s a₁ s₁ _ hr => cases h; exact read_data_ne_nil hr

theorem readOn_weight_lt {s s' : Source} {n : Nat} {bytes : Bytes}
    (h : s.readOn n = (.data bytes, s')) : s'.weight < s.weight := by
  fun_induction readOn s n with
  | case1 s s₁ hr ih =>
    exact Nat.lt_trans (ih h) (read_weight_lt hr id)
  | case2 s a₁ s₁ _ hr => cases h; exact read_weight_lt hr id

end Source
end BitPacking
