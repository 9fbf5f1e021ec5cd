import BitPacking.Archive.EntryEncoder.Call
import BitPacking.Proofs.Pipe.Content
import BitPacking.Proofs.Stream.Sending

namespace BitPacking.Archive.EntryEncoder

-- What the owner of an entry encoder asks for. Who finishes or drops an encoder does not have it
-- any more.
inductive Order
  | push (value : UInt64)
  | extend (values : List UInt64)
  | finish
  | drop
deriving DecidableEq, Repr

namespace Order

def values : Order → List UInt64
  | push value    => [value]
  | extend values => values
  | finish | drop => []

def isFinal : Order → Bool
  | finish | drop     => true
  | push _ | extend _ => false

def call : Order → Call
  | finish => .finishing
  | drop   => .dropping
  | order  => .pushing order.values

end Order

inductive Turn
  | order (order : Order)
  | caller
  | drain
deriving DecidableEq, Repr

structure Session (σ : Type) [Archive σ] where
  entry    : EntryEncoder σ
  -- The order that is being carried out.
  call     : Option (Order × Call) := none
  closed   : Bool := false
  -- What the write of the entry came to, once it has.
  drained  : Option (Completion Nat) := none
  -- The orders that were carried out and what they came to, in order.
  outcomes : List (Order × Outcome) := []

variable {σ : Type} [Archive σ]

namespace Session

def start (entry : EntryEncoder σ) : Session σ :=
  { entry }

def order (s : Session σ) (o : Order) : Session σ :=
  if s.closed ∨ s.call.isSome then s else { s with call := some (o, o.call), closed := o.isFinal }

def caller (s : Session σ) : Session σ :=
  match s.call with
  | none        => s
  | some (o, c) =>
    match c.step s.entry with
    | none                               => s
    | some ⟨(.done outcome, entry), _⟩ =>
      { s with entry, call := none, outcomes := s.outcomes ++ [(o, outcome)] }
    | some ⟨(c, entry), _⟩             => { s with entry, call := some (o, c) }

def completion? : Drain σ → Option (Completion Nat)
  | .ended c => some c
  | _        => none

def drain (a : σ) (s : Session σ) : σ × Session σ :=
  match s.entry.drain with
  | .running _ =>
    let (a', entry) := (drainStep a s.entry).value
    (a'.getD a, { s with entry, drained := completion? entry.drain <|> s.drained })
  | _          => (a, s)

def take (a : σ) (s : Session σ) : Turn → σ × Session σ
  | .order o => (a, s.order o)
  | .caller  => (a, s.caller)
  | .drain   => s.drain a

variable {s : Session σ} {o : Order} {c : Call} {e : EntryEncoder σ} {events : List Event}

theorem order_of_idle (hc : s.call = none) (hn : s.closed = false) (o : Order) :
    s.order o = { s with call := some (o, o.call), closed := o.isFinal } := by
  rw [order, if_neg (by simp [hc, hn])]

theorem order_cases (s : Session σ) (o : Order) : s.order o = s ∨
    s.call = none ∧ s.closed = false ∧
      s.order o = { s with call := some (o, o.call), closed := o.isFinal } := by
  by_cases h : s.closed ∨ s.call.isSome
  case pos => exact .inl (by rw [order, if_pos h])
  case neg =>
    simp only [not_or, Bool.not_eq_true, Option.isSome_eq_false_iff, Option.isNone_iff_eq_none] at h
    exact .inr ⟨h.right, h.left, order_of_idle h.right h.left o⟩

theorem entry_order (s : Session σ) (o : Order) :
    (s.order o).entry = s.entry ∧ (s.order o).drained = s.drained := by
  rcases s.order_cases o with he | ⟨_, _, he⟩
  all_goals
    rw [he]
    exact ⟨rfl, rfl⟩

theorem caller_none (h : s.call = none) : s.caller = s := by
  simp only [caller, h]

theorem caller_wait (h : s.call = some (o, c)) (hs : c.step s.entry = none) : s.caller = s := by
  simp only [caller, h, hs]

theorem caller_done {outcome : Outcome} (h : s.call = some (o, c))
    (hs : c.step s.entry = some ⟨(.done outcome, e), events⟩) : s.caller =
      { s with entry := e, call := none, outcomes := s.outcomes ++ [(o, outcome)] } := by
  simp only [caller, h, hs]

theorem caller_step {c' : Call} (h : s.call = some (o, c))
    (hs : c.step s.entry = some ⟨(c', e), events⟩) (hc : ∀ outcome, c' ≠ .done outcome) :
    s.caller = { s with entry := e, call := some (o, c') } := by
  simp only [caller, h, hs]

section drain

variable {w : Write σ} {n : Nat} {pipe : Pipe} {x : Source.Answer} {r : Completion Nat}

theorem drain_idle (a : σ) (h : ∀ w, s.entry.drain ≠ .running w) : s.drain a = (a, s) := by
  rw [drain]
  split
  case h_1 w hw => exact absurd hw (h w)
  case h_2      => rfl

theorem drain_turn (a : σ) (h : s.entry.drain = .running w) (hr : request w = .turn) :
    s.drain a = ((turn a w).value.1,
      { s with entry := { s.entry with drain := .running (turn a w).value.2 } }) := by
  simp [drain, drainStep, h, hr, completion?]

theorem drain_wait (a : σ) (h : s.entry.drain = .running w) (hr : request w = .input n)
    (hp : s.entry.pipe.answer n = (none, pipe)) :
    s.drain a = (a, { s with entry := { s.entry with pipe } }) := by
  simp [drain, drainStep, h, hr, hp, completion?]

theorem drain_feed (a : σ) (h : s.entry.drain = .running w) (hr : request w = .input n)
    (hp : s.entry.pipe.answer n = (some x, pipe)) : s.drain a = ((feed a w x).1,
      { s with entry := { s.entry with pipe, drain := .running (feed a w x).2 } }) := by
  simp [drain, drainStep, h, hr, hp, completion?]

theorem drain_done (a : σ) (h : s.entry.drain = .running w) (hr : request w = .done r) :
    s.drain a = (a, { s with
      entry   := { s.entry with drain := .ended r, pipe := s.entry.pipe.dropReader }
      drained := some r }) := by
  simp [drain, drainStep, h, hr, completion?]

end drain

-- A step of the drain, with the archive and the session that it leaves.
inductive Draining (a : σ) (s : Session σ) : σ × Session σ → Prop
  | idle (h : ∀ w, s.entry.drain ≠ .running w) :
      Draining a s (a, s)
  | turn {w : Write σ} (h : s.entry.drain = .running w) (hr : request w = .turn) :
      Draining a s ((turn a w).value.1,
        { s with entry := { s.entry with drain := .running (turn a w).value.2 } })
  | wait {w : Write σ} {n : Nat} {pipe : Pipe} (h : s.entry.drain = .running w)
      (hr : request w = .input n) (hp : s.entry.pipe.answer n = (none, pipe)) :
      Draining a s (a, { s with entry := { s.entry with pipe } })
  | feed {w : Write σ} {n : Nat} {x : Source.Answer} {pipe : Pipe}
      (h : s.entry.drain = .running w) (hr : request w = .input n)
      (hp : s.entry.pipe.answer n = (some x, pipe)) :
      Draining a s ((feed a w x).1,
        { s with entry := { s.entry with pipe, drain := .running (feed a w x).2 } })
  | done {w : Write σ} {c : Completion Nat} (h : s.entry.drain = .running w)
      (hr : request w = .done c) :
      Draining a s (a, { s with
        entry   := { s.entry with drain := .ended c, pipe := s.entry.pipe.dropReader }
        drained := some c })

theorem drain_cases (a : σ) (s : Session σ) : Draining a s (s.drain a) := by
  by_cases h : ∃ w, s.entry.drain = .running w
  case neg =>
    have h := not_exists.1 h
    exact drain_idle a h ▸ .idle h
  case pos =>
    obtain ⟨w, h⟩ := h
    cases hr : request w
    case turn    => exact drain_turn a h hr ▸ .turn h hr
    case done c  => exact drain_done a h hr ▸ .done h hr
    case input n =>
      rcases hp : s.entry.pipe.answer n with ⟨_ | x, pipe⟩
      · exact drain_wait a h hr hp ▸ .wait h hr hp
      · exact drain_feed a h hr hp ▸ .feed h hr hp

-- The side of the owner, which is not touched by what the drain does.
structure SameOwner (s s' : Session σ) : Prop where
  encoder  : s'.entry.encoder = s.entry.encoder
  hands    : s'.entry.pipe.writer = s.entry.pipe.writer ∧
    s'.entry.pipe.handles = s.entry.pipe.handles
  call     : s'.call = s.call
  closed   : s'.closed = s.closed
  outcomes : s'.outcomes = s.outcomes

theorem sameOwner_drain (a : σ) (s : Session σ) : SameOwner s (s.drain a).2 := by
  have hx := s.drain_cases a
  generalize s.drain a = x at hx
  cases hx
  case wait n pipe h hr hp =>
    have hh := s.entry.pipe.sameHands_answer n
    rw [hp] at hh
    exact ⟨rfl, ⟨hh.writer, hh.handles⟩, rfl, rfl, rfl⟩
  case feed n x pipe h hr hp =>
    have hh := s.entry.pipe.sameHands_answer n
    rw [hp] at hh
    exact ⟨rfl, ⟨hh.writer, hh.handles⟩, rfl, rfl, rfl⟩
  all_goals exact ⟨rfl, ⟨rfl, rfl⟩, rfl, rfl, rfl⟩

end Session

-- A new encoder has an empty stream, an open pipe with an abort handle, and a drain that has begun.
theorem create_ok {name : String} {maxValue : UInt64} {containsZero : Bool} {e : EntryEncoder σ}
    (h : (create name maxValue containsZero).value = .returned (.ok e)) :
    ∃ c, (Config.stream maxValue containsZero).value = .ok c ∧ c.containsZero = containsZero ∧
      e.encoder.Sending c [] [] ∧ e.name = name ∧ e.drain = .running (begin name) ∧
      e.pipe = { Pipe.ofCapacity Pipe.defaultCapacity with handles := 1 } := by
  simp only [create, Logged.value_bind] at h
  split at h
  case h_1 => cases h
  case h_2 encoder hn =>
    split at h
    case h_1 => cases h
    case h_2 =>
      split at h
      case isTrue  => cases h
      case isFalse =>
        cases h
        simp only [Stream.Encoder.new, Logged.value_bind, Logged.value_pure] at hn
        cases hc : (Config.stream maxValue containsZero).value
        case ok c    =>
          obtain ⟨_, _, hz⟩ := Config.batch_ok hc
          rw [hc] at hn
          exact ⟨c, rfl, hz, Stream.Encoder.ofConfig_sending hn, rfl, rfl, rfl⟩
        case error _ => rw [hc] at hn; cases hn

theorem create_valid {name : String} {maxValue : UInt64} {containsZero : Bool} {e : EntryEncoder σ}
    (h : (create name maxValue containsZero).value = .returned (.ok e)) :
    Name.validate name = .ok () ∧ '\x00' ∉ name.toList := by
  simp only [create, Logged.value_bind] at h
  split at h
  case h_1 => cases h
  case h_2 =>
    split at h
    case h_1    => cases h
    case h_2 hv =>
      split at h
      case isTrue     => cases h
      case isFalse hn => exact ⟨hv, by simpa using hn⟩

theorem finish_drain {e e' : EntryEncoder σ} {r : Except Error Unit}
    (h : Call.finish e = some (r, e')) : e'.drain = e.drain := by
  simp only [Call.finish] at h
  split at h <;> cases h
  all_goals rfl

-- The owner leaves the drain to itself, except that it takes note of its end.
theorem step_drain {c c' : Call} {e e' : EntryEncoder σ} {events : List Event}
    (h : c.step e = some ⟨(c', e'), events⟩) :
    e'.drain = e.drain ∨ (∃ x, e.drain = .ended x) ∧ e'.drain = .joined := by
  cases c
  case pushing values =>
    cases values
    case nil        => cases h; exact .inl rfl
    case cons v vs  =>
      simp only [Call.step, Call.push] at h
      split at h <;> cases h
      all_goals exact .inl rfl
  case finishing      =>
    simp only [Call.step, Option.bind_eq_bind, Option.bind_eq_some_iff] at h
    obtain ⟨⟨_, e₁⟩, hf, h⟩ := h
    have hd := finish_drain hf
    split at h
    all_goals next heq => cases heq; cases h; exact .inl hd
  case dropping       =>
    simp only [Call.step] at h
    split at h
    case isFalse => cases h; exact .inl rfl
    case isTrue  =>
      simp only [Option.bind_eq_bind, Option.bind_eq_some_iff] at h
      obtain ⟨⟨_, e₁⟩, hf, h⟩ := h
      have hd := finish_drain hf
      split at h
      all_goals next heq => cases heq; cases h; exact .inl hd
  -- Aborting touches the pipe only.
  case aborting       =>
    simp only [Call.step] at h
    split at h
    case isTrue  => cases h; exact .inl rfl
    case isFalse =>
      simp only [Option.bind_eq_bind, Option.bind_eq_some_iff] at h
      obtain ⟨_, _, h⟩ := h
      cases h
      exact .inl rfl
  case joining        =>
    simp only [Call.step] at h
    split at h <;> cases h
    case h_2 hd => exact .inr ⟨⟨_, hd⟩, rfl⟩
    case h_3    => exact .inl rfl
  case done           => cases h

theorem Session.caller_drain (s : Session σ) :
    (s.caller.entry.drain = s.entry.drain ∨
      (∃ x, s.entry.drain = .ended x) ∧ s.caller.entry.drain = .joined) ∧
    s.caller.drained = s.drained := by
  match hc : s.call with
  | none        =>
    rw [caller_none hc]
    exact ⟨.inl rfl, rfl⟩
  | some (o, c) =>
    match hs : c.step s.entry with
    | none                    =>
      rw [caller_wait hc hs]
      exact ⟨.inl rfl, rfl⟩
    | some ⟨(c', e'), events⟩ =>
      by_cases hd : ∃ outcome, c' = .done outcome
      case pos =>
        obtain ⟨outcome, rfl⟩ := hd
        rw [caller_done hc hs]
        exact ⟨step_drain hs, rfl⟩
      case neg =>
        rw [caller_step hc hs fun outcome h => hd ⟨outcome, h⟩]
        exact ⟨step_drain hs, rfl⟩

variable {c : Config} {values : List UInt64} {sent : Bytes} {e : EntryEncoder σ}

-- A push stores its value, or it fails for good, or it has to wait.
inductive Pushing (c : Config) (values : List UInt64) (sent : Bytes) (e : EntryEncoder σ)
    (value : UInt64) (more : List UInt64) : Option (Logged (Call × EntryEncoder σ)) → Prop
  | stored {encoder : Stream.Encoder} {pipe : Pipe} {block : Bytes} {events : List Event}
      (hp : e.pipe.Takes block pipe)
      (h : encoder.Sending c (values ++ [value]) (sent ++ block)) :
      Pushing c values sent e value more
        (some ⟨(.pushing more, { e with encoder, pipe }), events⟩)
  | failed {encoder : Stream.Encoder} {cause : Error} {events : List Event}
      (he : encoder.phase = .aborted) :
      Pushing c values sent e value more
        (some ⟨(.aborting (.fail cause), { e with encoder, pipe := e.pipe.close }), events⟩)
  | waiting :
      Pushing c values sent e value more none

theorem push_cases (h : e.encoder.Sending c values sent) (hw : e.pipe.writer = true)
    (value : UInt64) (more : List UInt64) :
    Pushing c values sent e value more (Call.push e value more) := by
  have hx := h.push hw value
  rw [Call.push]
  rcases hpush : e.encoder.push e.pipe value with ⟨x, events⟩
  rw [hpush] at hx
  cases hx
  case stored _ hp h         => exact .stored hp h
  case refused cause _ hc he _ =>
    cases cause
    case io => cases hc
    all_goals exact .failed he
  case waiting               => exact .waiting
  case gone he _             => exact .failed he

-- Finishing completes the stream and ends the input, or fails, or has to wait.
inductive Finishing (c : Config) (values : List UInt64) (sent : Bytes) (e : EntryEncoder σ) :
    Option (Except Error Unit × EntryEncoder σ) → Prop
  | whole {encoder : Stream.Encoder} {rest : Bytes} (hb : rest ≠ []) (hr : e.pipe.reader = true)
      (hh : e.pipe.hasRoom = true) (hw : Stream.Whole c values (sent ++ rest))
      (he : encoder.phase = .finished) :
      Finishing c values sent e (some (.ok (),
        { e with encoder, pipe := (e.pipe.push (.chunk rest)).close.dropHandle }))
  | gone {encoder : Stream.Encoder} {cause : Error} (hr : e.pipe.reader = false)
      (he : encoder.phase = .finished) :
      Finishing c values sent e (some (.error cause, { e with encoder, pipe := e.pipe.close }))
  | waiting :
      Finishing c values sent e none

theorem finish_cases (h : e.encoder.Sending c values sent) (hw : e.pipe.writer = true) :
    Finishing c values sent e (Call.finish e) := by
  have hx := h.finish hw
  rw [Call.finish]
  generalize e.encoder.finish e.pipe = x at hx
  cases hx
  case whole hb hr hh hwhole he _ => exact .whole hb hr hh hwhole he
  case waiting                    => exact .waiting
  case gone hr he                 => exact .gone hr he

-- How a call goes on that has completed the stream.
inductive Winning : Order → Sequel → Prop
  | finish : Winning .finish .report
  | drop   : Winning .drop .logFailure

-- How a call goes on that could not complete it.
inductive Forfeiting (cause : Error) : Order → Sequel → Prop
  | finish : Forfeiting cause .finish (.fail cause)
  | drop   : Forfeiting cause .drop .ignore

section ending

variable {o : Order} {e' : EntryEncoder σ} {cause : Error}

-- Both ways to end an entry finish the stream first.
theorem step_ending_ok (ho : o.isFinal = true) (hl : e.isLive = true)
    (h : Call.finish e = some (.ok (), e')) :
    ∃ sequel events, Winning o sequel ∧ o.call.step e = some ⟨(.joining sequel, e'), events⟩ := by
  cases o
  case finish =>
    refine ⟨_, [], .finish, ?_⟩
    simp only [Order.call, Call.step, h]
    rfl
  case drop   =>
    refine ⟨_, [], .drop, ?_⟩
    simp only [Order.call, Call.step, h, hl]
    rfl
  all_goals cases ho

theorem step_ending_error (ho : o.isFinal = true) (hl : e.isLive = true)
    (h : Call.finish e = some (.error cause, e')) :
    ∃ sequel events, Forfeiting cause o sequel ∧
      o.call.step e = some ⟨(.aborting sequel, e'), events⟩ := by
  cases o
  case finish =>
    refine ⟨_, [], .finish, ?_⟩
    simp only [Order.call, Call.step, h]
    rfl
  case drop   =>
    refine ⟨_, [.entryNotFinished e'.name cause], .drop, ?_⟩
    simp only [Order.call, Call.step, h, hl]
    rfl
  all_goals cases ho

theorem step_ending_none (ho : o.isFinal = true) (hl : e.isLive = true)
    (h : Call.finish e = none) : o.call.step e = none := by
  cases o
  case finish => simp only [Order.call, Call.step, h]; rfl
  case drop   => simp only [Order.call, Call.step, h, hl]; rfl
  all_goals cases ho

end ending

section giving_up

variable {sequel : Sequel} {pipe : Pipe}

theorem step_aborting (hh : e.pipe.handles ≠ 0) (hp : e.pipe.abortHandle = some pipe) :
    (Call.aborting sequel).step e = some ⟨(.joining sequel, { e with pipe }), []⟩ := by
  simp only [Call.step, if_neg hh, hp]
  rfl

theorem step_aborting_none (hh : e.pipe.handles ≠ 0) (hp : e.pipe.abortHandle = none) :
    (Call.aborting sequel).step e = none := by
  simp only [Call.step, if_neg hh, hp]
  rfl

theorem step_aborting_again (hh : e.pipe.handles = 0) :
    (Call.aborting sequel).step e = some ⟨(.joining sequel, e), []⟩ := by
  simp only [Call.step, if_pos hh]
  rfl

-- The abort handle is used up, with an abort in the queue unless nobody is there to take it.
theorem abortHandle_cases (p : Pipe) :
    (p.reader = false ∧ p.abortHandle = some p.dropHandle) ∨
      (p.reader = true ∧ p.abortHandle = some (p.push .abort).dropHandle) ∨
      p.abortHandle = none := by
  rcases p.send_cases .abort with ⟨hr, h⟩ | ⟨hr, _, h⟩ | ⟨_, _, h⟩
  · exact .inl ⟨hr, by simp [Pipe.abortHandle, Pipe.sendAbort, h]⟩
  · exact .inr (.inl ⟨hr, by simp [Pipe.abortHandle, Pipe.sendAbort, h]⟩)
  · exact .inr (.inr (by simp [Pipe.abortHandle, Pipe.sendAbort, h]))

end giving_up

-- The first step of a call where a push has failed before and the drain is over: whoever asks for
-- something is refused.
theorem step_refusing (he : e.encoder.phase = .aborted) (hd : e.drain = .joined) (o : Order) :
    ((o.values ≠ [] ∨ o = .finish) ∧ ∃ events,
        o.call.step e = some ⟨(.aborting (.fail .encoderAborted), e), events⟩) ∨
      (¬(o.values ≠ [] ∨ o = .finish) ∧ ∃ r, o.call.step e = some ⟨(.done r, e), []⟩ ∧
        (r = .pushed ∨ r = .dropped)) := by
  have hpush (value : UInt64) (values : List UInt64) : ∃ events,
      (Call.pushing (value :: values)).step e =
        some ⟨(.aborting (.fail .encoderAborted), e), events⟩ := by
    have hn : e.encoder.phase ≠ .running := by simp [he]
    have hx := Stream.Encoder.push_stopped hn e.pipe value
    rcases hp : e.encoder.push e.pipe value with ⟨x, events⟩
    rw [hp] at hx
    cases hx
    exact ⟨events, by simp only [Call.step, Call.push, hp]⟩
  cases o
  case push value    => exact .inl ⟨.inl (by simp [Order.values]), hpush value []⟩
  case extend values =>
    cases values
    case nil              => exact .inr ⟨by simp [Order.values], _, rfl, .inl rfl⟩
    case cons value more  => exact .inl ⟨.inl (by simp [Order.values]), hpush value more⟩
  case finish        =>
    have hx := Stream.Encoder.finish_aborted he e.pipe
    exact .inl ⟨.inr rfl, [], by simp only [Order.call, Call.step, Call.finish, hx]; rfl⟩
  case drop          =>
    refine .inr ⟨by simp [Order.values], .dropped, ?_, .inr rfl⟩
    simp only [Order.call, Call.step, EntryEncoder.isLive, hd]
    rfl

theorem step_joining_running {w : Write σ} (h : e.drain = .running w) (sequel : Sequel) :
    (Call.joining sequel).step e = none := by
  simp only [Call.step, h]

theorem step_joining {c : Completion Nat} (h : e.drain = .ended c) (sequel : Sequel) :
    (Call.joining sequel).step e = some ⟨(.done (sequel.outcome e.name c).value,
      { e with drain := .joined }), (sequel.outcome e.name c).events ++ []⟩ := by
  simp only [Call.step, h]
  rfl

theorem step_joining_again (h : e.drain = .joined) (sequel : Sequel) :
    (Call.joining sequel).step e = some ⟨(.done (sequel.outcome e.name (.returned (.ok 0))).value,
      e), (sequel.outcome e.name (.returned (.ok 0))).events ++ []⟩ := by
  simp only [Call.step, h]
  rfl

end BitPacking.Archive.EntryEncoder
