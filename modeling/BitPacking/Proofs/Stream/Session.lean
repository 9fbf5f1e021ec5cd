import BitPacking.Proofs.Stream.Encoder

namespace BitPacking.Stream

inductive Session.Call
  | push (value : UInt64)
  | extend (values : List UInt64)
  | finish
deriving DecidableEq, Repr

structure Session (σ : Type) where
  encoder  : Encoder
  sink     : Sink σ
  -- The values whose push succeeded, in order.
  stored   : List UInt64 := []
  -- The calls and what they came to, in order.
  outcomes : List (Session.Call × Except Error Unit) := []

namespace Session

variable {σ : Type}

namespace Call

def values : Call → List UInt64
  | push value    => [value]
  | extend values => values
  | finish        => []

def perform (e : Encoder) (s : Sink σ) : Call → Except Error Unit × Encoder × Sink σ
  | push value    => (e.push s value).value
  | extend values => (e.extend s values).value
  | finish        => e.finish s

theorem perform_of_ne_finish {call : Call} (h : call ≠ .finish) (e : Encoder) (s : Sink σ) :
    call.perform e s = (e.extend s call.values).value := by
  cases call
  case push   => exact Encoder.value_push ..
  case extend => rfl
  case finish => exact absurd rfl h

end Call

def start (encoder : Encoder) (behaviour : Sink.Behaviour σ) (state : σ) : Session σ :=
  { encoder, sink := { behaviour, state } }

def step (s : Session σ) (call : Call) : Session σ :=
  let (outcome, encoder, sink) := call.perform s.encoder s.sink
  { encoder, sink
    stored   := s.stored ++ s.encoder.pushed s.sink call.values
    outcomes := s.outcomes ++ [(call, outcome)] }

def run (s : Session σ) (calls : List Call) : Session σ :=
  calls.foldl step s

def drop (s : Session σ) : Session σ :=
  let (encoder, sink) := (s.encoder.drop s.sink).value
  { s with encoder, sink }

-- The sink has the whole stream, and was told with success to pass it on.
structure Complete (c : Config) (s : Session σ) : Prop where
  whole   : Whole c s.stored s.sink.accepted
  flushes : s.sink.flushes = [.ok ()]

-- What the calls came to once the stream was finished: the first finish decides, and all that is
-- left for a push is to be told so.
structure Ended (c : Config) (r : Except Error Unit) (s : Session σ) : Prop where
  finished : s.encoder.Finished c s.stored r s.sink
  first    : (.finish, r) ∈ s.outcomes
  finishes : ∀ o ∈ s.outcomes, o.1 = .finish → o.2 = .ok () ∨ o.2 = r
  others   : ∀ o ∈ s.outcomes, o.1 ≠ .finish → o.2 = .ok () ∨ o.2 = .error .encoderAborted

inductive Sound (c : Config) (s : Session σ) : Prop
  | running (h : s.encoder.Running c s.stored s.sink)
      (ho : ∀ o ∈ s.outcomes, o.1 ≠ .finish ∧ o.2 = .ok ())
  | ended (r : Except Error Unit) (h : s.Ended c r)
  | aborted (h : s.encoder.Aborted c s.stored s.sink)

variable {c : Config} {e : Encoder} {behaviour : Sink.Behaviour σ} {state : σ} {s : Session σ}

theorem start_sound (h : Encoder.ofConfig c = .ok e) : Sound c (start e behaviour state) :=
  .running (Encoder.ofConfig_running h) nofun

theorem step_finish {r : Except Error Unit} {e' : Encoder} {sink : Sink σ}
    (h : s.encoder.finish s.sink = (r, e', sink)) :
    s.step .finish = ⟨e', sink, s.stored, s.outcomes ++ [(.finish, r)]⟩ := by
  simp only [step, Call.perform, Call.values, Encoder.pushed, h, List.append_nil]

theorem step_extend {call : Call} {r : Except Error Unit} {e' : Encoder} {sink : Sink σ}
    (hc : call ≠ .finish) (h : (s.encoder.extend s.sink call.values).value = (r, e', sink)) :
    s.step call = ⟨e', sink, s.stored ++ s.encoder.pushed s.sink call.values,
      s.outcomes ++ [(call, r)]⟩ := by
  rw [step, Call.perform_of_ne_finish hc, h]

theorem step_stopped (h : s.encoder.phase ≠ .running) (call : Call) :
    ∃ r, s.step call = { s with outcomes := s.outcomes ++ [(call, r)] } ∧
      (call = .finish → s.encoder.finish s.sink = (r, s.encoder, s.sink)) ∧
      (call ≠ .finish → r = .ok () ∨ r = .error .encoderAborted) := by
  by_cases hc : call = .finish
  case pos =>
    have ⟨r, hr⟩ := Encoder.finish_stopped h s.sink
    exact ⟨r, hc ▸ step_finish hr, fun _ => hr, (absurd hc ·)⟩
  case neg =>
    have ⟨r, hr, ho⟩ := Encoder.extend_stopped h s.sink call.values
    refine ⟨r, ?_, (absurd · hc), fun _ => ho⟩
    rw [step_extend hc hr, Encoder.pushed_stopped h, List.append_nil]

theorem sound_of_finish (h : s.encoder.Running c s.stored s.sink)
    (ho : ∀ o ∈ s.outcomes, o.1 ≠ .finish ∧ o.2 = .ok ()) : Sound c (s.step .finish) := by
  match hf : s.encoder.finish s.sink with
  | (r, e', sink) =>
    rw [step_finish hf]
    apply Sound.ended r
    constructor
    case finished => exact Encoder.finish_running h hf
    case first    => exact List.mem_append_right _ (List.mem_singleton_self _)
    case finishes =>
      refine List.forall_mem_append.2 ⟨fun o h hf => absurd hf (ho o h).left, ?_⟩
      exact List.forall_mem_singleton.2 fun _ => .inr rfl
    case others   =>
      refine List.forall_mem_append.2 ⟨fun o h _ => .inl (ho o h).right, ?_⟩
      exact List.forall_mem_singleton.2 (absurd rfl ·)

theorem sound_of_extend {call : Call} (hc : call ≠ .finish)
    (h : s.encoder.Running c s.stored s.sink)
    (ho : ∀ o ∈ s.outcomes, o.1 ≠ .finish ∧ o.2 = .ok ()) : Sound c (s.step call) := by
  match hx : (s.encoder.extend s.sink call.values).value with
  | (r, e', sink) =>
    rw [step_extend hc hx]
    cases Encoder.extend_running h hx
    case inl hx =>
      have ⟨hr, hv, hrun, _⟩ := hx
      refine .running (hv.symm ▸ hrun) (List.forall_mem_append.2 ⟨ho, ?_⟩)
      exact List.forall_mem_singleton.2 ⟨hc, hr⟩
    case inr hx =>
      have ⟨_, _, _, ha⟩ := hx
      exact .aborted ha

theorem Ended.step {r : Except Error Unit} (h : s.Ended c r) (call : Call) :
    (s.step call).Ended c r := by
  have hp : s.encoder.phase ≠ .running := by
    rw [h.finished.phase]
    exact nofun
  have ⟨r', hs, hf, ho⟩ := step_stopped hp call
  rw [hs]
  constructor
  case finished => exact h.finished
  case first    => exact List.mem_append_left _ h.first
  case finishes =>
    refine List.forall_mem_append.2 ⟨h.finishes, List.forall_mem_singleton.2 fun hc => .inl ?_⟩
    exact congrArg Prod.fst ((hf hc).symm.trans (Encoder.finish_finished h.finished.phase s.sink))
  case others   =>
    exact List.forall_mem_append.2 ⟨h.others, List.forall_mem_singleton.2 ho⟩

theorem Sound.step (h : Sound c s) (call : Call) : Sound c (s.step call) := by
  cases h
  case running h ho =>
    by_cases hc : call = .finish
    case pos => exact hc ▸ sound_of_finish h ho
    case neg => exact sound_of_extend hc h ho
  case ended r h    => exact .ended r (h.step call)
  case aborted h    =>
    have hp : s.encoder.phase ≠ .running := by
      rw [h.phase]
      exact nofun
    have ⟨_, hs, _⟩ := step_stopped hp call
    rw [hs]
    exact .aborted h

theorem Sound.run (h : Sound c s) (calls : List Call) : Sound c (s.run calls) := by
  induction calls generalizing s
  case nil             => exact h
  case cons call cs hi => exact hi (h.step call)

theorem Sound.ended_of_phase (h : Sound c s) (hp : s.encoder.phase = .finished) :
    ∃ r, s.Ended c r := by
  cases h
  case running h _ => rw [h.phase] at hp; cases hp
  case ended r h   => exact ⟨r, h⟩
  case aborted h   => rw [h.phase] at hp; cases hp

namespace Ended

variable {call : Call} {r : Except Error Unit} {cause : Error}

theorem complete_iff (h : s.Ended c r) :
    s.Complete c ↔ ∀ r', (.finish, r') ∈ s.outcomes → r' = .ok () := by
  constructor
  case mp  =>
    intro hc r' hr
    cases h.finishes _ hr rfl
    case inl ho => exact ho
    case inr ho => exact ho.trans (h.finished.ok_iff.2 ⟨hc.whole, hc.flushes⟩)
  case mpr =>
    intro ho
    have ⟨hw, hs⟩ := h.finished.ok_iff.1 (ho r h.first)
    exact ⟨hw, hs⟩

theorem eq_encoderAborted (h : s.Ended c r) (hc : call ≠ .finish)
    (hm : (call, .error cause) ∈ s.outcomes) : cause = .encoderAborted := by
  cases h.others _ hm hc
  case inl ho => cases ho
  case inr ho => cases ho; rfl

theorem finish_mem (h : s.Ended c r) : .finish ∈ s.outcomes.map Prod.fst :=
  List.mem_map_of_mem h.first

end Ended

theorem ended_of_finish_ok (h : Sound c s) (hf : (s.encoder.finish s.sink).1 = .ok ()) :
    ∃ r, (s.step .finish).Ended c r ∧
      (s.step .finish).outcomes = s.outcomes ++ [(.finish, .ok ())] := by
  have hr : s.encoder.finish s.sink = (.ok (), (s.encoder.finish s.sink).2) := Prod.ext hf rfl
  have hs := step_finish hr
  have hp : (s.step .finish).encoder.phase = .finished := by
    rw [hs]
    exact Encoder.phase_of_finish_ok hr
  have ⟨r, ho⟩ := (h.step .finish).ended_of_phase hp
  exact ⟨r, ho, by rw [hs]⟩

-- A finish that succeeds has completed the stream unless one before it failed to, and it never
-- succeeds where a push has failed on the sink.
theorem complete_step_finish_iff {calls : List Call} (he : Encoder.ofConfig c = .ok e)
    (hs : s = (start e behaviour state).run calls)
    (hf : (s.encoder.finish s.sink).1 = .ok ()) :
    ((s.step .finish).Complete c ↔ ∀ r, (.finish, r) ∈ s.outcomes → r = .ok ()) ∧
      ∀ call cause, (call, .error (.io cause)) ∈ s.outcomes → call = .finish := by
  have h : Sound c s := hs ▸ (start_sound he).run calls
  have ⟨r, hended, ho⟩ := ended_of_finish_ok h hf
  constructor
  case left  =>
    rw [hended.complete_iff, ho]
    constructor
    case mp  => exact fun h r hr => h r (List.mem_append_left _ hr)
    case mpr =>
      intro h r hr
      cases List.mem_append.1 hr
      case inl hr => exact h r hr
      case inr hr => cases List.mem_singleton.1 hr; rfl
  case right =>
    intro call cause hm
    by_contra hc
    have hm' : (call, .error (.io cause)) ∈ (s.step .finish).outcomes :=
      ho ▸ List.mem_append_left _ hm
    cases hended.eq_encoderAborted hc hm'

-- A stream of 1 and 0 that its sink accepts, and the same one where the sink has room for nothing.
theorem complete_step_finish_accepted :
    let c : Config := ⟨1, 0, true, by decide⟩
    ∃ e, Encoder.ofConfig c = .ok e ∧
      let s := (start e ({} : Sink.Limits).sink.behaviour {}).run [.push 1, .extend [0]]
      (s.encoder.finish s.sink).1 = .ok () ∧
        ((s.step .finish).Complete c ↔ ∀ r, (.finish, r) ∈ s.outcomes → r = .ok ()) ∧
        ∀ call cause, (call, .error (.io cause)) ∈ s.outcomes → call = .finish := by
  intro c
  let e : Encoder := { config := c, writer := .ofBytes [2] }
  have he : Encoder.ofConfig c = .ok e := by decide +kernel
  refine ⟨e, he, ?_, complete_step_finish_iff he rfl ?_⟩
  all_goals decide +kernel

theorem not_complete_step_finish_refused :
    let c : Config := ⟨1, 0, true, by decide⟩
    ∃ e, Encoder.ofConfig c = .ok e ∧
      let s := (start e ({ capacity := some 0 } : Sink.Limits).sink.behaviour {}).run
        [.push 1, .extend [0], .finish]
      s.outcomes = [(.push 1, .ok ()), (.extend [0], .ok ()),
        (.finish, .error (.io (.other "sink full")))] ∧
        (s.encoder.finish s.sink).1 = .ok () ∧ (s.step .finish).sink.accepted = [] ∧
        ¬(s.step .finish).Complete c := by
  intro c
  let e : Encoder := { config := c, writer := .ofBytes [2] }
  have he : Encoder.ofConfig c = .ok e := by decide +kernel
  refine ⟨e, he, ?_, ?_, ?_, ?_⟩
  case refine_4 =>
    intro h
    have hf := h.flushes
    revert hf
    decide +kernel
  all_goals decide +kernel

end Session
end BitPacking.Stream
