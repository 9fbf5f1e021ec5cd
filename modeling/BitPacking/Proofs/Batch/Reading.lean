import BitPacking.Proofs.Batch.Spelling

namespace BitPacking.Batch

namespace Decoder

inductive Gives : Decoder → List (List UInt64) → Decoder → Prop
  | nil (d : Decoder) : Gives d [] d
  | cons {d d₁ d' : Decoder} {values : List UInt64} {sequences : List (List UInt64)}
      (h : d.next = (.ok (some values), d₁)) (hs : Gives d₁ sequences d') :
      Gives d (values :: sequences) d'

end Decoder

namespace Delivered

-- What comes of some calls where all that they gave is wanted: that, or else their failure.
def outcome {α : Type} (d : Delivered) (a : α) : Except Error α :=
  match d.failure with
  | none   => .ok a
  | some e => .error e

-- What an iterator gives before it is over.
def items (d : Delivered) : List (Except Error (Option (List UInt64))) :=
  d.sequences.map (fun values => .ok (some values)) ++ d.failure.toList.map .error

end Delivered

namespace Decoder

def item (d : Decoder) : (k : Nat) → Except Error (Option (List UInt64))
  | 0     => d.nextOrStop.1
  | k + 1 => d.nextOrStop.2.item k

def Wide (value : UInt64) : Prop :=
  UInt8.size ≤ value.toNat

instance (value : UInt64) : Decidable (Wide value) :=
  inferInstanceAs (Decidable (_ ≤ _))

-- The sequences up to the first with a wide value in it, that one included.
def untilWide (sequences : List (List UInt64)) : List (List UInt64) :=
  sequences.take (sequences.findIdx (·.any (Wide ·)) + 1)

variable {d d₁ d' : Decoder} {values : List UInt64} {sequences : List (List UInt64)}
variable {value : UInt64} {cause : Error}

theorem remaining_of_end (h : d.next = (.ok none, d')) : d.remaining = 0 ∧ d' = d := by
  rw [next] at h
  split at h
  case isTrue hn => cases h; exact ⟨hn, rfl⟩
  case isFalse   => split at h <;> cases h

theorem remaining_of_error (h : d.next = (.error cause, d')) : d'.remaining = d.remaining := by
  rw [next] at h
  split at h
  case isTrue  => cases h
  case isFalse =>
    split at h
    case h_1    => cases h
    case h_2 hs => cases h; simpa [hs] using remaining_readSequence d

theorem Gives.remaining (h : d.Gives sequences d') :
    d'.remaining + sequences.length = d.remaining := by
  induction h
  case nil         => rfl
  case cons h _ hi =>
    have := remaining_next h
    rw [List.length_cons]
    omega

-- Calls of `next` come to an end, by a call that tells so or by one that fails.
theorem exists_gives_deliver (d : Decoder) : ∃ d₁ d', d.Gives d.deliver.sequences d₁ ∧
    d₁.next = (d.deliver.outcome none, d') := by
  fun_induction deliver d
  case case1 h delivered hi =>
    obtain ⟨d₁, d', hg, hn⟩ := hi
    exact ⟨d₁, d', .cons h hg, hn⟩
  case case2 h              => exact ⟨_, _, .nil _, h⟩
  case case3 h              => exact ⟨_, _, .nil _, h⟩

theorem Gives.readAll (h : d.Gives sequences d') (past : List (List UInt64)) :
    d.readAll past = d'.readAll (sequences.reverse ++ past) := by
  induction h generalizing past
  case nil         => rfl
  case cons h _ hi =>
    rw [readAll_of_some past h, hi, List.reverse_cons, List.append_assoc, List.singleton_append]

theorem all_eq (h : d.Gives d.deliver.sequences d₁) (hn : d₁.next = (d.deliver.outcome none, d')) :
    d.all = (d.deliver.outcome d.deliver.sequences, d') := by
  rw [all, h.readAll, List.append_nil]
  rw [Delivered.outcome] at hn ⊢
  split at hn
  case h_1 hf => rw [readAll_of_end _ hn, List.reverse_reverse]
  case h_2 hf => rw [readAll_of_error _ hn]

theorem nextOrStop_of_ok {values? : Option (List UInt64)} (h : d.next = (.ok values?, d')) :
    d.nextOrStop = (.ok values?, d') := by
  rw [nextOrStop, h]

theorem nextOrStop_of_error (h : d.next = (.error cause, d')) :
    d.nextOrStop = (.error cause, { d' with remaining := 0 }) := by
  rw [nextOrStop, h]

theorem item_of_eq_zero (h : d.remaining = 0) (k : Nat) : d.item k = .ok none := by
  have hn := nextOrStop_of_ok (next_of_eq_zero h)
  induction k
  case zero      => rw [item, hn]
  case succ k hi => rw [item, hn, hi]

theorem item_eq (d : Decoder) (k : Nat) : d.item k = d.deliver.items.getD k (.ok none) := by
  fun_induction deliver d generalizing k
  case case1 h delivered hi =>
    cases k
    case zero   => rw [item, nextOrStop_of_ok h]; rfl
    case succ k => rw [item, nextOrStop_of_ok h, hi]; rfl
  case case2 h              =>
    rw [item_of_eq_zero (remaining_of_end h).left]
    rfl
  case case3 h              =>
    cases k
    case zero   => rw [item, nextOrStop_of_error h]; rfl
    case succ k => rw [item, nextOrStop_of_error h, item_of_eq_zero rfl]; rfl

theorem bytesOfValues_eq (values : List UInt64) : bytesOfValues values =
    match values.find? (Wide ·) with
    | some value => .error (.valueTooLarge value 8)
    | none       => .ok (values.map UInt64.toUInt8) := by
  induction values
  case nil          => rfl
  case cons v vs hi =>
    rw [bytesOfValues]
    by_cases hw : Wide v
    case pos => rw [if_neg (Nat.not_lt.2 hw), List.find?_cons_of_pos (by simpa using hw)]
    case neg =>
      rw [if_pos (Nat.lt_of_not_le hw), List.find?_cons_of_neg (by simpa using hw), hi]
      cases vs.find? (Wide ·)
      case none => rfl
      case some => rfl

theorem readAllBytes_of_some (past : List Bytes) (h : d.next = (.ok (some values), d')) :
    d.readAllBytes past =
      match values.find? (Wide ·) with
      | some value => (.error (.valueTooLarge value 8), d')
      | none       => d'.readAllBytes (values.map UInt64.toUInt8 :: past) := by
  rw [readAllBytes]
  split
  case h_1 hx =>
    rw [h] at hx
    cases hx
    rw [bytesOfValues_eq]
    cases values.find? (Wide ·)
    case none => rfl
    case some => rfl
  case h_2 hx => rw [h] at hx; cases hx
  case h_3 hx => rw [h] at hx; cases hx

theorem readAllBytes_of_end (past : List Bytes) (h : d.next = (.ok none, d')) :
    d.readAllBytes past = (.ok past.reverse.flatten, d') := by
  rw [readAllBytes]
  split
  case h_1 hx => rw [h] at hx; cases hx
  case h_2 hx => rw [h] at hx; cases hx; rfl
  case h_3 hx => rw [h] at hx; cases hx

theorem readAllBytes_of_error (past : List Bytes) (h : d.next = (.error cause, d')) :
    d.readAllBytes past = (.error cause, d') := by
  rw [readAllBytes]
  split
  case h_1 hx => rw [h] at hx; cases hx
  case h_2 hx => rw [h] at hx; cases hx
  case h_3 hx => rw [h] at hx; cases hx; rfl

theorem any_wide_iff : values.any (Wide ·) = true ↔ (values.find? (Wide ·)).isSome := by
  rw [List.find?_isSome, List.any_eq_true]

theorem untilWide_cons_of_some (h : values.find? (Wide ·) = some value) :
    untilWide (values :: sequences) = [values] := by
  have ha : values.any (Wide ·) = true := any_wide_iff.2 (h ▸ rfl)
  rw [untilWide, List.findIdx_cons, ha]
  rfl

theorem untilWide_eq_self (h : sequences.flatten.find? (Wide ·) = none) :
    untilWide sequences = sequences := by
  rw [untilWide, List.findIdx_eq_length_of_false, List.take_of_length_le (Nat.le_succ _)]
  intro values hm
  have hv := List.find?_flatten_eq_none_iff.1 h values hm
  exact List.any_eq_false.2 fun v hm => by simpa using hv v hm

theorem untilWide_cons_of_none (h : values.find? (Wide ·) = none) :
    untilWide (values :: sequences) = values :: untilWide sequences := by
  have ha : values.any (Wide ·) = false := by
    rw [← Bool.not_eq_true, any_wide_iff, h]
    nofun
  rw [untilWide, List.findIdx_cons, ha]
  rfl

theorem Gives.readAllBytes (h : d.Gives sequences d') (past : List Bytes) :
    ∃ d₁, d.Gives (untilWide sequences) d₁ ∧ d.readAllBytes past =
      match sequences.flatten.find? (Wide ·) with
      | some value => (.error (.valueTooLarge value 8), d₁)
      | none       =>
        d'.readAllBytes ((sequences.map (·.map UInt64.toUInt8)).reverse ++ past) := by
  induction h generalizing past
  case nil d                            => exact ⟨d, .nil d, rfl⟩
  case cons d d₁ d' values rest h hs hi =>
    rw [readAllBytes_of_some past h, List.flatten_cons, List.find?_append]
    rcases hf : values.find? (Wide ·) with _ | value
    case none =>
      obtain ⟨d₂, hg, hr⟩ := hi (values.map UInt64.toUInt8 :: past)
      refine ⟨d₂, untilWide_cons_of_none hf ▸ .cons h hg, ?_⟩
      rw [hr, Option.none_or, List.map_cons, List.reverse_cons, List.append_assoc,
        List.singleton_append]
    case some =>
      exact ⟨d₁, untilWide_cons_of_some hf ▸ .cons h (.nil d₁), rfl⟩

theorem exists_bytes_eq (h : d.Gives d.deliver.sequences d₁)
    (hn : d₁.next = (d.deliver.outcome none, d')) :
    ∃ d₂, d.Gives (untilWide d.deliver.sequences) d₂ ∧ d.bytes =
      match d.deliver.sequences.flatten.find? (Wide ·) with
      | some value => (.error (.valueTooLarge value 8), d₂)
      | none       =>
        (d.deliver.outcome (d.deliver.sequences.flatten.map UInt64.toUInt8), d') := by
  obtain ⟨d₂, hg, hr⟩ := h.readAllBytes []
  refine ⟨d₂, hg, ?_⟩
  rw [bytes, hr]
  split
  case h_1 => rfl
  case h_2 =>
    rw [Delivered.outcome] at hn ⊢
    split at hn
    case h_1 => rw [readAllBytes_of_end _ hn, List.append_nil, List.reverse_reverse,
      List.map_flatten]
    case h_2 => rw [readAllBytes_of_error _ hn]

inductive Call
  | next
  | all
  | bytes

def Call.after (d : Decoder) : Call → Decoder
  | next  => d.next.2
  | all   => d.all.2
  | bytes => d.bytes.2

-- The sequences that a call reads whole, even where it fails and does not hand them over.
def Call.completed (d : Decoder) : Call → List (List UInt64)
  | next  =>
    match d.next.1 with
    | .ok (some values) => [values]
    | _                 => []
  | all   => d.deliver.sequences
  | bytes => untilWide d.deliver.sequences

def run (d : Decoder) : List Call → List (List UInt64) × Decoder
  | []            => ([], d)
  | call :: calls =>
    let (sequences, d') := (call.after d).run calls
    (call.completed d ++ sequences, d')

-- A call consists of calls of `next` that give the sequences which it reads whole, and perhaps of
-- one more that fails.
theorem Call.gives (call : Call) (d : Decoder) : ∃ d₁, d.Gives (call.completed d) d₁ ∧
    (call.after d = d₁ ∨ ∃ e, d₁.next = (.error e, call.after d)) := by
  obtain ⟨d₁, d', hg, hn⟩ := exists_gives_deliver d
  have hlast : d' = d₁ ∨ ∃ e, d₁.next = (.error e, d') := by
    rw [Delivered.outcome] at hn
    split at hn
    case h_1 => exact .inl (remaining_of_end hn).right
    case h_2 => exact .inr ⟨_, hn⟩
  cases call
  case next  =>
    rcases h : d.next with ⟨e | _ | values, d₂⟩
    case error   => exact ⟨d, by rw [completed, h]; exact .nil d, .inr ⟨e, by rw [after, h]⟩⟩
    case ok.none =>
      refine ⟨d, by rw [completed, h]; exact .nil d, .inl ?_⟩
      rw [after, h]
      exact (remaining_of_end h).right
    case ok.some =>
      exact ⟨d₂, by rw [completed, h]; exact .cons h (.nil d₂), .inl (by rw [after, h])⟩
  case all   =>
    rw [completed, after, all_eq hg hn]
    exact ⟨d₁, hg, hlast⟩
  case bytes =>
    obtain ⟨d₂, hg₂, hb⟩ := exists_bytes_eq hg hn
    rw [completed, after, hb]
    split
    case h_1    => exact ⟨d₂, hg₂, .inl rfl⟩
    case h_2 hf =>
      rw [untilWide_eq_self hf]
      exact ⟨d₁, hg, hlast⟩

theorem remaining_after (call : Call) (d : Decoder) :
    (call.after d).remaining + (call.completed d).length = d.remaining := by
  obtain ⟨d₁, hg, he⟩ := call.gives d
  rcases he with he | ⟨e, he⟩
  · rw [he, hg.remaining]
  · rw [remaining_of_error he, hg.remaining]

theorem remaining_run (calls : List Call) (d : Decoder) :
    (d.run calls).2.remaining + (d.run calls).1.length = d.remaining := by
  induction calls generalizing d
  case nil                => rfl
  case cons call calls hi =>
    have hc := remaining_after call d
    have hr := hi (call.after d)
    simp only [run, List.length_append]
    omega

theorem remaining_ofSource {source s : Source} {containsZero : Bool}
    (h : ofSource source containsZero = (.ok d, s)) :
    d.remaining = d.header.sequenceCount.toNat := by
  simp only [ofSource] at h
  split at h
  case h_1 => cases h
  case h_2 =>
    split at h
    case h_1 => cases h
    case h_2 => cases h; rfl

-- However a batch is read, all readings agree with calls of `next`, and none of them loses count.
theorem readings_agree (d : Decoder) :
    (∃ d₁ d₂ d', d.Gives d.deliver.sequences d₁ ∧ d₁.next = (d.deliver.outcome none, d') ∧
      d.all = (d.deliver.outcome d.deliver.sequences, d') ∧
      (∀ k, d.item k = d.deliver.items.getD k (.ok none)) ∧
      d.Gives (untilWide d.deliver.sequences) d₂ ∧ d.bytes =
        match d.deliver.sequences.flatten.find? (Wide ·) with
        | some value => (.error (.valueTooLarge value 8), d₂)
        | none       =>
          (d.deliver.outcome (d.deliver.sequences.flatten.map UInt64.toUInt8), d')) ∧
    (∀ call : Call, ∃ d₁, d.Gives (call.completed d) d₁ ∧
      (call.after d = d₁ ∨ ∃ e, d₁.next = (.error e, call.after d))) ∧
    ∀ source containsZero s, ofSource source containsZero = (.ok d, s) → ∀ calls,
      (d.run calls).2.remaining + (d.run calls).1.length = d.header.sequenceCount.toNat := by
  obtain ⟨d₁, d', hg, hn⟩ := exists_gives_deliver d
  obtain ⟨d₂, hg₂, hb⟩ := exists_bytes_eq hg hn
  refine ⟨⟨d₁, d₂, d', hg, hn, all_eq hg hn, item_eq d, hg₂, hb⟩, fun call => call.gives d,
    fun source containsZero s h calls => ?_⟩
  rw [remaining_run, remaining_ofSource h]

-- A failure within the second sequence, and a source that gives more after it: what was read of
-- that sequence is lost, and the next calls read as many sequences as were left.
theorem readings_agree_resumed :
    let source : Source :=
      { answers := [.data [8, 0, 0, 0, 2, 0, 0, 0, 3, 1, 2, 3], .failure .notFound,
          .data [4, 5, 6, 7]] }
    ∃ d s, ofSource source false = (.ok d, s) ∧ d.item 1 = .error (.io .notFound) ∧
      d.item 2 = .ok none ∧ (d.run [.next, .all, .bytes]).1 = [[1, 2], [4, 5], [6, 7]] ∧
      (d.run [.next, .all, .bytes]).2.remaining + 3 = d.header.sequenceCount.toNat := by
  intro source
  have hd : (ofSource source false).1.map (fun d => (d.deliver, (d.run [.next, .all, .bytes]).1)) =
      .ok (⟨[[1, 2]], some (.io .notFound)⟩, [[1, 2], [4, 5], [6, 7]]) := by decide +kernel
  rcases h : ofSource source false with ⟨e | d, s⟩
  case error => rw [h] at hd; cases hd
  case ok    =>
    rw [h] at hd
    obtain ⟨hg, hr⟩ := Prod.mk.inj (Except.ok.inj hd)
    obtain ⟨⟨-, -, -, -, -, -, hi, -⟩, -, hc⟩ := readings_agree d
    have hc := hc source false s h [.next, .all, .bytes]
    rw [hr] at hc
    exact ⟨d, s, rfl, by rw [hi, hg]; rfl, by rw [hi, hg]; rfl, hr, hc⟩

end Decoder
end BitPacking.Batch
