import BitPacking.Source

namespace BitPacking.Source

namespace Answer

def supplied (as : List Answer) : Bytes :=
  (as.takeWhile fun a => ¬a.Final).flatMap bytes

def final? (as : List Answer) : Option Answer :=
  as.find? fun a => a.Final

def outcome : Answer → Except IoError Unit
  | failure e => .error e
  | _         => .ok ()

variable {a : Answer} {as : List Answer}

@[simp]
theorem supplied_nil : supplied [] = [] :=
  rfl

@[simp]
theorem final?_nil : final? [] = none :=
  rfl

theorem supplied_of_final (h : a.Final) : supplied (a :: as) = [] := by
  simp [supplied, h]

theorem final?_of_final (h : a.Final) : final? (a :: as) = some a := by
  simp [final?, h]

theorem supplied_of_not_final (h : ¬a.Final) : supplied (a :: as) = a.bytes ++ supplied as := by
  simp [supplied, h]

theorem final?_of_not_final (h : ¬a.Final) : final? (a :: as) = final? as := by
  simp [final?, h]

@[simp]
theorem supplied_data (bytes : Bytes) (as : List Answer) :
    supplied (.data bytes :: as) = bytes ++ supplied as :=
  supplied_of_not_final id

@[simp]
theorem final?_data (bytes : Bytes) (as : List Answer) : final? (.data bytes :: as) = final? as :=
  final?_of_not_final id

theorem supplied_append {bs : List Answer} (h : final? as = none) :
    supplied (as ++ bs) = supplied as ++ supplied bs := by
  induction as
  case nil          => rfl
  case cons a as hi =>
    by_cases ha : a.Final
    case pos => rw [final?_of_final ha] at h; cases h
    case neg =>
      rw [final?_of_not_final ha] at h
      rw [List.cons_append, supplied_of_not_final ha, supplied_of_not_final ha, hi h,
        List.append_assoc]

theorem final?_append {bs : List Answer} (h : final? as = none) :
    final? (as ++ bs) = final? bs := by
  rw [final?, List.find?_append, ← final?, h, Option.none_or, final?]

end Answer

def Onward.outcome : Onward → Except IoError Unit
  | ended     => .ok ()
  | failing e => .error e
  | undecided => .error .wouldBlock

def supplied (s : Source) : Bytes :=
  Answer.supplied s.answers

def ending (s : Source) : Except IoError Unit :=
  match Answer.final? s.answers with
  | some a => a.outcome
  | none   => s.onward.outcome

@[simp]
theorem supplied_ofBytes (bytes : Bytes) : (ofBytes bytes).supplied = bytes := by
  simp [supplied, ofBytes]

@[simp]
theorem ending_ofBytes (bytes : Bytes) : (ofBytes bytes).ending = .ok () := by
  simp [ending, ofBytes, Onward.outcome]

section next

variable {n : Nat} {a : Answer} {as rest : List Answer}

theorem next_of_not_final (h : next n as = some (a, rest)) (ha : ¬a.Final) :
    Answer.supplied as = a.bytes ++ Answer.supplied rest ∧
      Answer.final? as = Answer.final? rest := by
  fun_induction next n as
  case case1            => cases h
  case case2 hi         => simpa using hi h
  case case3 b bs rest' =>
    cases h
    simp only [Answer.supplied_data, Answer.final?_data, Answer.bytes, ← List.append_assoc,
      List.take_append_drop, and_self]
  case case4            =>
    cases h
    exact ⟨Answer.supplied_of_not_final ha, Answer.final?_of_not_final ha⟩

theorem next_of_final (h : next n as = some (a, rest)) (ha : a.Final) :
    Answer.supplied as = [] ∧ Answer.final? as = some a := by
  fun_induction next n as
  case case1    => cases h
  case case2 hi => simpa using hi h
  case case3    => cases h; cases ha
  case case4    =>
    cases h
    exact ⟨Answer.supplied_of_final ha, Answer.final?_of_final ha⟩

theorem next_data_length_le {bytes : Bytes} (h : next n as = some (.data bytes, rest)) :
    bytes.length ≤ n := by
  fun_induction next n as
  case case1          => cases h
  case case2 hi       => exact hi h
  case case3          => cases h; exact List.length_take_le ..
  case case4 a _ _ hd =>
    cases h
    cases bytes
    case nil  => exact Nat.zero_le n
    case cons => exact absurd rfl (hd _ _)

theorem next_eq_none (h : next n as = none) :
    Answer.supplied as = [] ∧ Answer.final? as = none := by
  fun_induction next n as
  case case1    => exact ⟨rfl, rfl⟩
  case case2 hi => simpa using hi h
  case case3    => cases h
  case case4    => cases h

end next

variable {s s' : Source} {n : Nat} {a : Answer}

theorem read_of_not_final (h : s.read n = (a, s')) (ha : ¬a.Final) :
    s.supplied = a.bytes ++ s'.supplied ∧ s'.ending = s.ending := by
  simp only [read] at h
  split at h
  case isTrue  => cases h; exact absurd trivial ha
  case isFalse =>
    split at h
    case h_1 hn =>
      cases h
      have hx := next_of_not_final hn ha
      exact ⟨hx.left, by simp only [ending, hx.right]⟩
    all_goals cases h; exact absurd trivial ha

theorem read_of_final (hn : 0 < n) (h : s.read n = (a, s')) (ha : a.Final) :
    s.supplied = [] ∧ s.ending = a.outcome := by
  simp only [read] at h
  split at h
  case isTrue h0 => omega
  case isFalse   =>
    split at h
    case h_1 hx =>
      cases h
      have hf := next_of_final hx ha
      exact ⟨hf.left, by simp only [ending, hf.right]⟩
    all_goals
      next hx ho =>
        cases h
        have hn := next_eq_none hx
        exact ⟨hn.left, by simp only [ending, hn.right, ho]; rfl⟩

theorem read_data_length_le {bytes : Bytes} (h : s.read n = (.data bytes, s')) :
    bytes.length ≤ n := by
  simp only [read] at h
  split at h
  case isTrue  => cases h
  case isFalse =>
    split at h
    case h_1 hn => cases h; exact next_data_length_le hn
    all_goals cases h

theorem readOn_ne_interrupted (h : s.readOn n = (a, s')) : a ≠ .interrupted := by
  fun_induction readOn s n
  case case1 s s₁ hr hi    => exact hi h
  case case2 s a₁ s₁ ha hr => cases h; rintro rfl; exact ha rfl

theorem readOn_of_data {bytes : Bytes} (h : s.readOn n = (.data bytes, s')) :
    s.supplied = bytes ++ s'.supplied ∧ s'.ending = s.ending := by
  fun_induction readOn s n
  case case1 s s₁ hr hi   =>
    have hx := read_of_not_final hr id
    have hx' := hi h
    exact ⟨hx.left.trans hx'.left, hx'.right.trans hx.right⟩
  case case2 s a₁ s₁ _ hr => cases h; exact read_of_not_final hr id

theorem readOn_data_length_le {bytes : Bytes} (h : s.readOn n = (.data bytes, s')) :
    bytes.length ≤ n := by
  fun_induction readOn s n
  case case1 hi => exact hi h
  case case2 hr => cases h; exact read_data_length_le hr

theorem readOn_of_final (hn : 0 < n) (h : s.readOn n = (a, s')) (ha : a.Final) :
    s.supplied = [] ∧ s.ending = a.outcome := by
  fun_induction readOn s n
  case case1 s s₁ hr hi   =>
    have hx := read_of_not_final hr id
    have hx' := hi h
    exact ⟨hx.left.trans hx'.left, hx.right.symm.trans hx'.right⟩
  case case2 s a₁ s₁ _ hr => cases h; exact read_of_final hn hr ha

theorem exists_readOn_data (hn : 0 < n) (hs : s.supplied ≠ []) :
    ∃ b bs s', s.readOn n = (.data (b :: bs), s') ∧ s.supplied = b :: bs ++ s'.supplied ∧
      s'.ending = s.ending := by
  match hr : s.readOn n with
  | (.data [], s')        => exact absurd rfl (readOn_data_ne_nil hr)
  | (.data (b :: bs), s') => exact ⟨b, bs, s', rfl, readOn_of_data hr⟩
  | (.endOfInput, s')     => exact absurd (readOn_of_final hn hr trivial).left hs
  | (.interrupted, s')    => exact absurd rfl (readOn_ne_interrupted hr)
  | (.failure e, s')      => exact absurd (readOn_of_final hn hr trivial).left hs

theorem exists_readOn_final (hn : 0 < n) (hs : s.supplied = []) :
    ∃ a s', s.readOn n = (a, s') ∧ a.Final ∧ s.ending = a.outcome := by
  match hr : s.readOn n with
  | (.data bytes, s')     =>
    have ⟨h, _⟩ := readOn_of_data hr
    rw [hs] at h
    exact absurd (List.append_eq_nil_iff.1 h.symm).left (readOn_data_ne_nil hr)
  | (.endOfInput, s')     => exact ⟨_, s', rfl, trivial, (readOn_of_final hn hr trivial).right⟩
  | (.interrupted, s')    => exact absurd rfl (readOn_ne_interrupted hr)
  | (.failure e, s')      => exact ⟨_, s', rfl, trivial, (readOn_of_final hn hr trivial).right⟩

-- The blocks in which reads of `n` bytes give what a source supplies.
def blocks (s : Source) (n : Nat) : List Bytes :=
  match _h : s.readOn n with
  | (.data bytes, s') => bytes :: s'.blocks n
  | _                 => []
termination_by s.weight
decreasing_by exact readOn_weight_lt _h

theorem blocks_of_readOn {bytes : Bytes} (h : s.readOn n = (.data bytes, s')) :
    s.blocks n = bytes :: s'.blocks n := by
  rw [blocks]
  split
  case h_1 h' => cases h.symm.trans h'; rfl
  case h_2 h' => exact absurd h (h' _ _)

theorem blocks_of_final (h : s.readOn n = (a, s')) (ha : a.Final) : s.blocks n = [] := by
  rw [blocks]
  split
  case h_1 h' => cases h.symm.trans h'; cases ha
  case h_2    => rfl

theorem readOn_of_interrupted (h : s.read n = (.interrupted, s')) : s.readOn n = s'.readOn n := by
  rw [readOn]
  split
  case h_1 hr        => cases h.symm.trans hr; rfl
  case h_2 a₁ _ ha hr => cases h.symm.trans hr; exact absurd rfl ha

theorem readOn_of_read (h : s.read n = (a, s')) (ha : a ≠ .interrupted) :
    s.readOn n = (a, s') := by
  rw [readOn]
  split
  case h_1 hr      => cases h.symm.trans hr; exact absurd rfl ha
  case h_2 a₁ _ _ hr => cases h.symm.trans hr; rfl

theorem blocks_of_interrupted (h : s.read n = (.interrupted, s')) : s.blocks n = s'.blocks n := by
  rw [blocks, blocks, readOn_of_interrupted h]

theorem flatten_blocks (hn : 0 < n) (s : Source) : (s.blocks n).flatten = s.supplied := by
  induction hw : s.weight using Nat.strongRecOn generalizing s
  case ind k hi =>
    match hr : s.readOn n with
    | (.data bytes, s')  =>
      rw [blocks_of_readOn hr, List.flatten_cons, hi _ (hw ▸ readOn_weight_lt hr) s' rfl,
        (readOn_of_data hr).left]
    | (.endOfInput, s')  =>
      rw [blocks_of_final hr trivial, (readOn_of_final hn hr trivial).left, List.flatten_nil]
    | (.interrupted, s') => exact absurd rfl (readOn_ne_interrupted hr)
    | (.failure e, s')   =>
      rw [blocks_of_final hr trivial, (readOn_of_final hn hr trivial).left, List.flatten_nil]

-- No answer to come ends the input or fails: what every read gives once they are used up does.
def Lasting (s : Source) : Prop :=
  Answer.final? s.answers = none

theorem lasting_ofBytes (bytes : Bytes) : (ofBytes bytes).Lasting := by
  simp [Lasting, ofBytes]

namespace Lasting

theorem ending (hl : s.Lasting) : s.ending = s.onward.outcome := by
  simp only [Source.ending, show Answer.final? s.answers = none from hl]

theorem read (hl : s.Lasting) (h : s.read n = (a, s')) :
    s'.Lasting ∧ s'.onward = s.onward ∧ s.supplied = a.bytes ++ s'.supplied := by
  simp only [Source.read] at h
  split at h
  case isTrue  => cases h; exact ⟨hl, rfl, rfl⟩
  case isFalse =>
    split at h
    case h_1 hn =>
      cases h
      by_cases ha : a.Final
      case pos => cases hl.symm.trans (next_of_final hn ha).right
      case neg =>
        obtain ⟨hs, hf⟩ := next_of_not_final hn ha
        exact ⟨hf.symm.trans hl, rfl, hs⟩
    all_goals
      cases h
      exact ⟨hl, rfl, rfl⟩

theorem readOn (hl : s.Lasting) (h : s.readOn n = (a, s')) :
    s'.Lasting ∧ s'.onward = s.onward ∧ s.supplied = a.bytes ++ s'.supplied := by
  fun_induction Source.readOn s n
  case case1 s s₁ hr hi   =>
    obtain ⟨hl₁, ho₁, hs₁⟩ := hl.read hr
    obtain ⟨hl', ho', hs'⟩ := hi hl₁ h
    exact ⟨hl', ho'.trans ho₁, hs₁.trans hs'⟩
  case case2 s a₁ s₁ _ hr =>
    cases h
    exact hl.read hr

end Lasting

-- Whoever reads such a source beyond what it was given has to wait.
structure Undecided (s : Source) : Prop where
  onward  : s.onward = .undecided
  final?  : Answer.final? s.answers = none
  starved : s.starved = none

namespace Undecided

theorem ending (hu : s.Undecided) : s.ending = .error .wouldBlock := by
  simp only [Source.ending, hu.final?, hu.onward, Onward.outcome]

theorem supply (hu : s.Undecided) (ha : ¬a.Final) :
    (s.supply a).Undecided ∧ (s.supply a).supplied = s.supplied ++ a.bytes := by
  have hs : s.supply a = { s with answers := s.answers ++ [a] } := by
    cases a
    case endOfInput => exact absurd trivial ha
    case failure    => exact absurd trivial ha
    all_goals rfl
  rw [hs]
  refine ⟨⟨hu.onward, ?_, hu.starved⟩, ?_⟩
  · rw [Answer.final?_append hu.final?, Answer.final?_of_not_final ha, Answer.final?_nil]
  · simp only [supplied]
    rw [Answer.supplied_append hu.final?, Answer.supplied_of_not_final ha, Answer.supplied_nil,
      List.append_nil]

theorem supply_endOfInput (hu : s.Undecided) :
    (s.supply .endOfInput).supplied = s.supplied ∧ (s.supply .endOfInput).ending = .ok () := by
  refine ⟨rfl, ?_⟩
  simp only [Source.supply, Source.ending, hu.final?, Onward.outcome]

theorem read (hu : s.Undecided) (h : s.read n = (a, s')) (ha : ¬a.Final) : s'.Undecided := by
  simp only [Source.read] at h
  split at h
  case isTrue  => cases h; exact absurd trivial ha
  case isFalse =>
    split at h
    case h_1 hn =>
      cases h
      exact ⟨hu.onward, (next_of_not_final hn ha).right ▸ hu.final?, hu.starved⟩
    all_goals cases h; exact absurd trivial ha

theorem readOn (hu : s.Undecided) {bytes : Bytes} (h : s.readOn n = (.data bytes, s')) :
    s'.Undecided := by
  fun_induction Source.readOn s n
  case case1 s s₁ hr hi   => exact hi (hu.read hr id) h
  case case2 s a₁ s₁ _ hr => cases h; exact hu.read hr id

theorem read_final (hu : s.Undecided) (hn : 0 < n) (h : s.read n = (a, s')) (ha : a.Final) :
    s'.starved = some n := by
  simp only [Source.read] at h
  split at h
  case isTrue hz => omega
  case isFalse   =>
    split at h
    case h_1 hx =>
      cases h
      have hf := (next_of_final hx ha).right
      rw [hu.final?] at hf
      cases hf
    case h_2 ho => rw [hu.onward] at ho; cases ho
    case h_3 ho => rw [hu.onward] at ho; cases ho
    case h_4    =>
      cases h
      simp only [hu.starved]
      rfl

theorem starved_of_readOn (hu : s.Undecided) (hn : 0 < n) (hs : s.supplied = []) :
    ∃ s', s.readOn n = (.failure .wouldBlock, s') ∧ s'.starved = some n := by
  have ⟨a, s', hr, ha, he⟩ := exists_readOn_final hn hs
  rw [hu.ending] at he
  have hst : s'.starved = some n := by
    fun_induction Source.readOn s n
    case case1 s s₁ hr₁ hi   =>
      have hx := read_of_not_final hr₁ id
      have hs₁ : s₁.supplied = [] := by simpa [hx.left, Answer.bytes] using hs
      exact hi (hu.read hr₁ id) hs₁ hr
    case case2 s a₁ s₁ _ hr₁ => cases hr; exact hu.read_final hn hr₁ ha
  cases a
  case failure e => cases he; exact ⟨s', hr, hst⟩
  all_goals cases he

end Undecided

end BitPacking.Source
