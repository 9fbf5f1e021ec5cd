import BitPacking.Proofs.Stream.Decoder
import BitPacking.Proofs.Stream.Session

namespace BitPacking.Stream.Session

variable {σ : Type} {c : Config} {e : Encoder} {behaviour : Sink.Behaviour σ} {state : σ}
variable {s s' : Session σ} {calls : List Call} {source : Source}

-- Of what a sink has accepted, every part from the front on breaks off, unless it is a whole stream
-- that was finished.
theorem Sound.unfinished_or_whole {bytes : Bytes} (h : Sound c s)
    (hb : bytes <+: s.sink.accepted) :
    Unfinished c s.stored bytes ∨ Whole c s.stored bytes ∧ ∃ r, s.Ended c r := by
  cases h
  case running h _ => exact .inl (h.unfinished.of_prefix hb)
  case aborted h   => exact .inl (h.unfinished.of_prefix hb)
  case ended r h   =>
    cases h.finished.holds
    case inr hu => exact .inl (hu.of_prefix hb)
    case inl hw =>
      by_cases heq : bytes = s.sink.accepted
      case pos => exact .inr ⟨heq ▸ hw, r, h⟩
      case neg => exact .inl (hw.unfinished_of_prefix hb heq)

theorem Sound.accepts (h : Sound c s) : ∀ v ∈ s.stored, c.Accepts v := by
  cases h
  case running h _ => exact h.accepts
  case ended _ h   => exact h.finished.accepts
  case aborted h   => exact h.accepts

theorem Sound.decode (h : Sound c s) (hp : source.supplied <+: s.sink.accepted)
    (he : source.ending = .ok ()) :
    (∃ front, front <+: s.stored ∧ (Stream.decode source c.containsZero).1 =
        ⟨front, some (if source.supplied = [] then .truncatedInput else .missingEndMarker)⟩) ∨
      ((Stream.decode source c.containsZero).1 = ⟨s.stored, none⟩ ∧
        Whole c s.stored source.supplied ∧ ∃ r, s.Ended c r) := by
  cases h.unfinished_or_whole hp
  case inl hu => exact .inl (decode_unfinished hu h.accepts he)
  case inr hw =>
    have ⟨hw, ho⟩ := hw
    have ⟨d, _, hd, hdec⟩ := decode_whole hw h.accepts List.prefix_rfl
    refine .inr ⟨?_, hw, ho⟩
    simp only [Stream.decode, hd, hdec]

theorem map_outcomes_run (s : Session σ) (calls : List Call) :
    (s.run calls).outcomes.map Prod.fst = s.outcomes.map Prod.fst ++ calls := by
  induction calls generalizing s
  case nil             => exact (List.append_nil _).symm
  case cons call cs hi =>
    rw [run, List.foldl_cons, ← run, hi, step]
    simp

-- Letting go of an encoder does what finishing it does, only that nobody hears of the outcome.
theorem drop_eq (s : Session σ) : s.drop = { s.step .finish with outcomes := s.outcomes } := by
  simp only [drop, Encoder.value_drop, step, Call.perform, Call.values, Encoder.pushed,
    List.append_nil]

-- At every point of a session, also in the middle of a call, as what the sink has accepted by then
-- is a part of what it has accepted in the end.
theorem decode_of_run (he : Encoder.ofConfig c = .ok e)
    (hs : s = (start e behaviour state).run calls) (hs' : s' = s ∨ s' = s.drop)
    (hp : source.supplied <+: s'.sink.accepted) (hend : source.ending = .ok ()) :
    (∃ front, front <+: s'.stored ∧ (Stream.decode source c.containsZero).1 =
        ⟨front, some (if source.supplied = [] then .truncatedInput else .missingEndMarker)⟩) ∨
      ((Stream.decode source c.containsZero).1 = ⟨s'.stored, none⟩ ∧
        Whole c s'.stored source.supplied ∧ (.finish ∈ calls ∨ s' = s.drop) ∧
        ∀ call cause, call ≠ .finish → (call, .error cause) ∈ s'.outcomes →
          cause = .encoderAborted) := by
  have h : Sound c s := hs ▸ (start_sound he).run calls
  cases hs'
  case inl hs' =>
    subst hs'
    cases h.decode hp hend
    case inl hd => exact .inl hd
    case inr hd =>
      have ⟨hd, hw, r, ho⟩ := hd
      have hm := ho.finish_mem
      rw [hs, map_outcomes_run] at hm
      exact .inr ⟨hd, hw, .inl hm, fun call cause hc hm => ho.eq_encoderAborted hc hm⟩
  case inr hs' =>
    have h' := h.step .finish
    have hs := hs'.trans s.drop_eq
    rw [hs] at hp ⊢
    cases h'.decode hp hend
    case inl hd => exact .inl hd
    case inr hd =>
      have ⟨hd, hw, r, ho⟩ := hd
      refine .inr ⟨hd, hw, .inr s.drop_eq.symm, ?_⟩
      exact fun call cause hc hm => ho.eq_encoderAborted hc (List.mem_append_left _ hm)

-- A sink without room for the last byte gets both values of a stream, but not all of its end mark.
theorem decode_of_run_cramped :
    let c : Config := ⟨5, 0, true, by decide⟩
    ∃ e s, Encoder.ofConfig c = .ok e ∧
      s = (start e ({ capacity := some 2 } : Sink.Limits).sink.behaviour {}).run
        [.push 5, .extend [0], .finish, .push 1] ∧
      (Source.ofBytes [3, 0xC4]).supplied <+: s.sink.accepted ∧
      (Source.ofBytes [3, 0xC4]).ending = .ok () ∧
      ((∃ front, front <+: s.stored ∧
          (Stream.decode (.ofBytes [3, 0xC4]) true).1 = ⟨front, some .missingEndMarker⟩) ∨
        ((Stream.decode (.ofBytes [3, 0xC4]) true).1 = ⟨s.stored, none⟩ ∧
          Whole c s.stored [3, 0xC4] ∧
          (.finish ∈ [Call.push 5, .extend [0], .finish, .push 1] ∨ s = s.drop) ∧
          ∀ call cause, call ≠ .finish → (call, .error cause) ∈ s.outcomes →
            cause = .encoderAborted)) := by
  intro c
  let e : Encoder := { config := c, writer := .ofBytes [3] }
  let s := (start e ({ capacity := some 2 } : Sink.Limits).sink.behaviour {}).run
    [.push 5, .extend [0], .finish, .push 1]
  have he : Encoder.ofConfig c = .ok e := by decide +kernel
  have hp : (Source.ofBytes [3, 0xC4]).supplied <+: s.sink.accepted := by decide +kernel
  have hend := Source.ending_ofBytes [3, 0xC4]
  exact ⟨e, s, he, rfl, hp, hend, decode_of_run he rfl (.inl rfl) hp hend⟩

end BitPacking.Stream.Session
