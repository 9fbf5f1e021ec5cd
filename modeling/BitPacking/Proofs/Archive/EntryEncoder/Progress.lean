import BitPacking.Proofs.Archive.EntryEncoder.Account

namespace BitPacking

namespace Pipe

variable {p p' : Pipe} {n : Nat}

theorem capacity_of_answer {a : Option Source.Answer} (h : p.answer n = (a, p')) :
    p'.capacity = p.capacity := by
  have hread {r : Except IoError Bytes} {p' : Pipe} (hr : p.read n = (r, p')) :
      p'.capacity = p.capacity := by
    have hx := reading_of_eq hr
    cases hx
    all_goals rfl
  simp only [answer] at h
  split at h
  all_goals
    next hr =>
      cases h
      exact hread hr

theorem queue_ne_nil_of_full (hc : 0 < p.capacity) (h : p.hasRoom = false) : p.queue ≠ [] := by
  intro hq
  simp [hasRoom, hq, Nat.ne_of_gt hc] at h

-- A read has to wait only where there is nothing to take and somebody to wait for, and then it has
-- to wait again.
theorem answer_eq_none (h : p.answer n = (none, p')) :
    p.queue = [] ∧ p.isClosed = false ∧ p'.answer n = (none, p') := by
  simp only [answer] at h
  split at h
  case h_1 hr =>
    have hx := reading_of_eq hr
    cases h
    cases hx
    case waiting ha hn hrest hq hc =>
      refine ⟨hq, hc, ?_⟩
      simp only [isClosed] at hc
      simp [answer, read, ha, hn, hrest, hq, isClosed, hc]
  all_goals cases h

theorem isClosed_dropHandle (hw : p.writer = false) (hh : p.handles = 1) :
    p.dropHandle.isClosed = true := by
  simp [dropHandle, isClosed, hw, hh]

end Pipe

namespace Archive.EntryEncoder

variable {σ : Type} [Archive σ] {e e' : EntryEncoder σ} {c : Config} {values : List UInt64}
variable {sent : Bytes}

theorem isSome_drainStep {w : Write σ} (a : σ) (hd : e.drain = .running w)
    (h : e.pipe.queue ≠ [] ∨ e.pipe.isClosed = true) :
    (drainStep a e).value.1.isSome = true := by
  simp only [drainStep, hd]
  split
  case h_1 => rfl
  case h_2 => rfl
  case h_3 =>
    split
    case h_2    => rfl
    case h_1 hx =>
      obtain ⟨hq, hc, _⟩ := Pipe.answer_eq_none hx
      simp [hq, hc] at h

-- A drain that has to wait, or is over, stays so until the owner does something.
theorem drainStep_again {a : σ} {events : List Event} (h : drainStep a e = ⟨(none, e'), events⟩) :
    (drainStep a e').value.1 = none := by
  simp only [drainStep] at h
  split at h
  case h_1 w hw =>
    split at h
    case h_1      => cases h
    case h_2      => cases h
    case h_3 n hr =>
      split at h
      case h_2         => cases h
      case h_1 pipe hx =>
        cases h
        obtain ⟨_, _, hx⟩ := Pipe.answer_eq_none hx
        simp [drainStep, hw, hr, hx]
  case h_2 hw   =>
    cases h
    rw [drainStep]
    split
    case h_1 hd => exact absurd hd (hw _)
    case h_2    => rfl

theorem full_of_push {value : UInt64} {more : List UInt64} (h : e.encoder.Sending c values sent)
    (hw : e.pipe.writer = true) (hx : Call.push e value more = none) :
    e.pipe.reader = true ∧ e.pipe.hasRoom = false := by
  have hp := h.push hw value
  simp only [Call.push] at hx
  generalize e.encoder.push e.pipe value = x at hp hx
  obtain ⟨x, events⟩ := x
  cases hp
  case waiting hr hh           => exact ⟨hr, hh⟩
  case stored                  => cases hx
  case gone                    => cases hx
  case refused cause _ hc _ _  =>
    cases cause
    case io => cases hc
    all_goals cases hx

theorem full_of_finish (h : e.encoder.Sending c values sent) (hw : e.pipe.writer = true)
    (hx : Call.finish e = none) : e.pipe.reader = true ∧ e.pipe.hasRoom = false := by
  have hf := h.finish hw
  simp only [Call.finish] at hx
  generalize e.encoder.finish e.pipe = x at hf hx
  cases hf
  case waiting hr hh => exact ⟨hr, hh⟩
  all_goals cases hx

theorem full_of_ending {o : Order} (h : e.encoder.Sending c values sent)
    (hw : e.pipe.writer = true) (ho : o.isFinal = true) (hl : e.isLive = true)
    (hx : o.call.step e = none) : e.pipe.reader = true ∧ e.pipe.hasRoom = false := by
  rcases hr : Call.finish e with _ | ⟨cause | _, _⟩
  case none  => exact full_of_finish h hw hr
  case error =>
    obtain ⟨_, _, _, hstep⟩ := step_ending_error ho hl hr
    cases hx.symm.trans hstep
  case ok    =>
    obtain ⟨_, _, _, hstep⟩ := step_ending_ok ho hl hr
    cases hx.symm.trans hstep

theorem full_of_aborting {sequel : Sequel} (hh : e.pipe.handles ≠ 0)
    (hx : (Call.aborting sequel).step e = none) :
    e.pipe.reader = true ∧ e.pipe.hasRoom = false := by
  rcases hp : e.pipe.abortHandle with _ | pipe
  case some => cases hx.symm.trans (step_aborting hh hp)
  case none =>
    rcases e.pipe.send_cases .abort with ⟨_, hs⟩ | ⟨_, _, hs⟩ | ⟨hr, hn, _⟩
    · simp [Pipe.abortHandle, Pipe.sendAbort, hs] at hp
    · simp [Pipe.abortHandle, Pipe.sendAbort, hs] at hp
    · exact ⟨hr, hn⟩

namespace Session

-- A call that has to wait.
def Waits (s : Session σ) : Prop :=
  ∃ o c, s.call = some (o, c) ∧ c.step s.entry = none

-- Who waits for the end of the drain has let go of the pipe, and who gives up has let go of its
-- writer. The pipe has room for a message at least.
structure Released (s : Session σ) : Prop where
  capacity : 0 < s.entry.pipe.capacity
  aborting : ∀ o sequel, s.call = some (o, .aborting sequel) →
    s.entry.drain = .joined ∨ s.entry.pipe.writer = false
  joining  : ∀ o sequel, s.call = some (o, .joining sequel) →
    s.entry.drain = .joined ∨ s.entry.pipe.isClosed = true

variable {T K : Write σ → Prop} {F : Completion Nat → Prop} {s : Session σ} {o : Order}
variable {sequel : Sequel}

theorem start_released (h : e.Created) : (start e).Released := by
  have ⟨_, _, _, he⟩ := h
  have ⟨_, _, _, _, _, _, hp⟩ := create_ok he
  have hc : e.pipe.capacity = Pipe.defaultCapacity := by rw [hp]; rfl
  exact ⟨(by rw [start, hc]; decide : 0 < (start e).entry.pipe.capacity), nofun, nofun⟩

theorem Released.of_joined (hc : 0 < s.entry.pipe.capacity) (hd : s.entry.drain = .joined) :
    s.Released :=
  ⟨hc, fun _ _ _ => .inl hd, fun _ _ _ => .inl hd⟩

theorem Released.order (h : s.Released) (o : Order) : (s.order o).Released := by
  rcases s.order_cases o with heq | ⟨_, _, heq⟩
  · rwa [heq]
  · rw [heq]
    refine ⟨h.capacity, fun o' sequel hc => ?_, fun o' sequel hc => ?_⟩
    all_goals cases o <;> cases hc

theorem Released.drain (h : s.Released) (a : σ) : (s.drain a).2.Released := by
  have ho := s.sameOwner_drain a
  have hcap : (s.drain a).2.entry.pipe.capacity = s.entry.pipe.capacity := by
    have hx := s.drain_cases a
    generalize s.drain a = x at hx
    cases hx
    case wait hp => exact Pipe.capacity_of_answer hp
    case feed hp => exact Pipe.capacity_of_answer hp
    all_goals rfl
  have hjoined (hd : s.entry.drain = .joined) : (s.drain a).2.entry.drain = .joined := by
    rw [drain_idle a (by simp [hd])]
    exact hd
  refine ⟨hcap ▸ h.capacity, fun o sequel hc => ?_, fun o sequel hc => ?_⟩
  · exact (h.aborting o sequel (ho.call ▸ hc)).imp hjoined ho.hands.left.trans
  · refine (h.joining o sequel (ho.call ▸ hc)).imp hjoined fun hx => ?_
    rwa [Pipe.isClosed, ho.hands.left, ho.hands.right]

theorem caller_pushing_released {more : List UInt64} (he : s.entry.encoder.Sending c values sent)
    (hw : s.entry.pipe.writer = true) (h : s.Released)
    (hc : s.call = some (o, .pushing more)) : s.caller.Released := by
  cases more
  case nil         =>
    rw [caller_done hc rfl]
    exact ⟨h.capacity, nofun, nofun⟩
  case cons v more =>
    have hx := push_cases he hw v more
    have hstep : (Call.pushing (v :: more)).step s.entry = Call.push s.entry v more := rfl
    generalize hr : Call.push s.entry v more = r at hx
    rw [hr] at hstep
    cases hx
    case stored hp hs =>
      rw [caller_step hc hstep nofun]
      refine ⟨?_, nofun, nofun⟩
      cases hp
      all_goals exact h.capacity
    case failed       =>
      rw [caller_step hc hstep nofun]
      exact ⟨h.capacity, fun _ _ _ => .inr rfl, nofun⟩
    case waiting      =>
      rw [caller_wait hc hstep]
      exact h

theorem caller_ending_released (he : s.entry.encoder.Sending c values sent)
    (hw : s.entry.pipe.writer = true) (hh : s.entry.pipe.handles = 1)
    (hl : s.entry.isLive = true) (h : s.Released) (hc : s.call = some (o, o.call))
    (hf : o.isFinal = true) : s.caller.Released := by
  have hx := finish_cases he hw
  generalize hr : Call.finish s.entry = r at hx
  cases hx
  case whole   =>
    obtain ⟨_, _, _, hstep⟩ := step_ending_ok hf hl hr
    rw [caller_step hc hstep nofun]
    exact ⟨h.capacity, nofun, fun _ _ _ => .inr (Pipe.isClosed_dropHandle rfl hh)⟩
  case gone    =>
    obtain ⟨_, _, _, hstep⟩ := step_ending_error hf hl hr
    rw [caller_step hc hstep nofun]
    exact ⟨h.capacity, fun _ _ _ => .inr rfl, nofun⟩
  case waiting =>
    rw [caller_wait hc (step_ending_none hf hl hr)]
    exact h

theorem caller_aborting_released (hh : s.entry.pipe.handles = 1) (h : s.Released)
    (hc : s.call = some (o, .aborting sequel)) : s.caller.Released := by
  have hh' : s.entry.pipe.handles ≠ 0 := by simp [hh]
  have hw := h.aborting o sequel hc
  rcases abortHandle_cases s.entry.pipe with ⟨_, hp⟩ | ⟨_, hp⟩ | hp
  · rw [caller_step hc (step_aborting hh' hp) nofun]
    exact ⟨h.capacity, nofun, fun _ _ _ => hw.imp_right (Pipe.isClosed_dropHandle · hh)⟩
  · rw [caller_step hc (step_aborting hh' hp) nofun]
    exact ⟨h.capacity, nofun, fun _ _ _ => hw.imp_right (Pipe.isClosed_dropHandle · hh)⟩
  · rw [caller_wait hc (step_aborting_none hh' hp)]
    exact h

theorem caller_joining_released (h : s.Released) (hc : s.call = some (o, .joining sequel)) :
    s.caller.Released := by
  match hd : s.entry.drain with
  | .running w =>
    rw [caller_wait hc (step_joining_running hd _)]
    exact h
  | .ended x   =>
    rw [caller_done hc (step_joining hd _)]
    exact ⟨h.capacity, nofun, nofun⟩
  | .joined    =>
    rw [caller_done hc (step_joining_again hd _)]
    exact ⟨h.capacity, nofun, nofun⟩

theorem caller_refusing_released (he : s.entry.encoder.phase = .aborted)
    (hh : s.entry.pipe.handles = 0) (hd : s.entry.drain = .joined) (hc : s.Refusing)
    (h : s.Released) : s.caller.Released := by
  cases hc
  case idle hc _         =>
    rw [caller_none hc]
    exact h
  case ordered o hc _    =>
    rcases step_refusing he hd o with ⟨_, _, hstep⟩ | ⟨_, _, hstep, _⟩
    · rw [caller_step hc hstep nofun]
      exact .of_joined h.capacity hd
    · rw [caller_done hc hstep]
      exact .of_joined h.capacity hd
  case failing hc hs _   =>
    rcases hs with rfl | rfl
    · rw [caller_step hc (step_aborting_again hh) nofun]
      exact .of_joined h.capacity hd
    · rw [caller_done hc (step_joining_again hd _)]
      exact .of_joined h.capacity hd

theorem Released.caller (hr : s.Released) (h : Sound T K F s) : s.caller.Released := by
  cases h
  case going he hw hh hd hc _    =>
    cases hc
    case idle hc _       =>
      rw [caller_none hc]
      exact hr
    case pushing hc _ _  => exact caller_pushing_released he hw hr hc
    case ending hc hf _  => exact caller_ending_released he hw hh hd.isLive hr hc hf
  case failing hc _ hh _ _       => exact caller_aborting_released hh hr hc
  case leaving hc _ _ _ _        => exact caller_joining_released hr hc
  case completing hc _ _ _ _     => exact caller_joining_released hr hc
  case refusing he hh hd hc _ _  => exact caller_refusing_released he hh hd hc hr
  case done hc _ _               =>
    rw [caller_none hc]
    exact hr

-- An encoder of which neither side waits in vain.
structure Live (T K : Write σ → Prop) (F : Completion Nat → Prop) (s : Session σ) : Prop where
  sound    : Sound T K F s
  released : s.Released

theorem Live.take (hs : Stages T K F) (h : Live T K F s) (a : σ) (t : Turn) :
    Live T K F (s.take a t).2 := by
  refine ⟨h.sound.take hs a t, ?_⟩
  cases t
  case order o => exact h.released.order o
  case caller  => exact h.released.caller h.sound
  case drain   => exact h.released.drain a

-- Who sends waits for a drain that is running and has something to take.
theorem Untold.isSome_drainStep {d : Option (Completion Nat)} (h : Untold T F e d)
    (hc : 0 < e.pipe.capacity) (hf : e.pipe.reader = true ∧ e.pipe.hasRoom = false) (a : σ) :
    (drainStep a e).value.1.isSome = true := by
  cases h
  case running hw _ _ _ _ =>
    exact EntryEncoder.isSome_drainStep a hw (.inl (Pipe.queue_ne_nil_of_full hc hf.right))
  case ended hr _ _       => cases hr.symm.trans hf.left

-- Who joins waits for a drain that finds the end of its input when it has taken all there is.
theorem Released.isSome_drainStep (h : s.Released) (hc : s.call = some (o, .joining sequel))
    (hs : (Call.joining sequel).step s.entry = none) (a : σ) :
    (drainStep a s.entry).value.1.isSome = true := by
  match hd : s.entry.drain with
  | .ended x   => rw [step_joining hd] at hs; cases hs
  | .joined    => rw [step_joining_again hd] at hs; cases hs
  | .running w =>
    refine EntryEncoder.isSome_drainStep a hd (.inr ?_)
    exact (h.joining o sequel hc).resolve_left (by simp [hd])

theorem Live.isSome_drainStep (h : Live T K F s) (hw : s.Waits) (a : σ) :
    (drainStep a s.entry).value.1.isSome = true := by
  have ⟨o, c, hc, hs⟩ := hw
  have hcap := h.released.capacity
  cases h.sound
  case going he hwr _ hd hk _      =>
    cases hk
    case idle hn _               => rw [hc] at hn; cases hn
    case pushing more hc' _ _    =>
      cases hc.symm.trans hc'
      cases more
      case nil  => cases hs
      case cons => exact hd.isSome_drainStep hcap (full_of_push he hwr hs) a
    case ending hc' hf _         =>
      cases hc.symm.trans hc'
      exact hd.isSome_drainStep hcap (full_of_ending he hwr hf hd.isLive hs) a
  -- Whoever has to wait in a send waits for room, and then the drain has something to take.
  case failing hc' _ hh hd _       =>
    cases hc.symm.trans hc'
    exact hd.isSome_drainStep hcap (full_of_aborting (by simp [hh]) hs) a
  case leaving hc' _ _ _ _         =>
    cases hc.symm.trans hc'
    exact h.released.isSome_drainStep hc hs a
  case completing hc' _ _ _ _      =>
    cases hc.symm.trans hc'
    exact h.released.isSome_drainStep hc hs a
  case refusing hf                 =>
    have hx := h.sound.never_waits hf hc
    rw [hs] at hx
    cases hx
  case done hn _ _                 => rw [hc] at hn; cases hn

theorem entry_drain (s : Session σ) (a : σ) :
    (s.drain a).2.entry = (drainStep a s.entry).value.2 := by
  rw [drain]
  split
  case h_1    => rfl
  case h_2 hd =>
    rw [drainStep]
    split
    case h_1 hw => exact absurd hw (hd _)
    case h_2    => rfl

-- Letting the drain go on takes turns of it until none is left that makes a difference.
theorem Live.settleOn (hs : Stages T K F) (h : Live T K F s) (he : s.entry = e) (a : σ)
    (past : List Event) : ∃ s', Live T K F s' ∧ s'.call = s.call ∧
      s'.entry = (EntryEncoder.settleOn a e past).value.2 ∧
      (drainStep (EntryEncoder.settleOn a e past).value.1 s'.entry).value.1 = none := by
  induction a, e, past using EntryEncoder.settleOn.induct generalizing s
  case case1 a e past a' e' events hx hi =>
    subst he
    rw [EntryEncoder.settleOn, hx]
    have hd := s.entry_drain a
    rw [hx] at hd
    have ⟨s', hl, hc, hr⟩ := hi (h.take hs a .drain) hd
    exact ⟨s', hl, hc.trans (s.sameOwner_drain a).call, hr⟩
  case case2 a e past e' events hx       =>
    subst he
    have hd := s.entry_drain a
    rw [hx] at hd
    refine ⟨_, h.take hs a .drain, (s.sameOwner_drain a).call, ?_, ?_⟩
    · rw [EntryEncoder.settleOn, hx]
      exact hd
    · rw [EntryEncoder.settleOn, hx]
      simp only [Session.take, hd]
      exact drainStep_again hx

-- The drain goes on until the call does not have to wait any more.
theorem Live.step_of_settle (hs : Stages T K F) (h : Live T K F s) {cl : Call}
    (hc : s.call = some (o, cl)) (a : σ) : ∃ s', Live T K F s' ∧ s'.call = some (o, cl) ∧
      s'.entry = (settle a s.entry).value.2 ∧ cl.step s'.entry ≠ none := by
  have ⟨s', h', hc', he, hd⟩ := h.settleOn hs rfl a []
  refine ⟨s', h', hc'.trans hc, he, fun hn => ?_⟩
  have hsome := h'.isSome_drainStep ⟨o, cl, hc'.trans hc, hn⟩ (settle a s.entry).value.1
  rw [settle, hd] at hsome
  cases hsome

-- A step of a call comes to its outcome, or leaves a call that is still to be carried out.
theorem Live.call_step (hs : Stages T K F) (h : Live T K F s) {cl cl' : Call}
    {events : List Event} (hc : s.call = some (o, cl))
    (hx : cl.step s.entry = some ⟨(cl', e'), events⟩) :
    (∃ outcome, cl' = .done outcome) ∨
      ∃ s', Live T K F s' ∧ s'.call = some (o, cl') ∧ s'.entry = e' := by
  by_cases hd : ∃ outcome, cl' = .done outcome
  case pos => exact .inl hd
  case neg =>
    have hcl := caller_step hc hx fun outcome h => hd ⟨outcome, h⟩
    refine .inr ⟨s.caller, ⟨h.sound.caller hs, h.released.caller h.sound⟩, ?_, ?_⟩
    · rw [hcl]
    · rw [hcl]

end Session

theorem callOn_done (a : σ) (e : EntryEncoder σ) (outcome : Outcome) (past : List Event) :
    ((callOn a e (.done outcome) past).value).1 = .done outcome := by
  rw [callOn]
  rfl

namespace Session

-- The induction is on what the call has ahead: where it has to wait, the drain goes on, and then it
-- takes a step.
theorem Live.callOn (hs : Stages T K F) (h : Live T K F s) (he : s.entry = e) {cl : Call}
    (hc : s.call = some (o, cl)) (a : σ) (past : List Event) :
    ∃ outcome, (EntryEncoder.callOn a e cl past).value.1 = .done outcome := by
  induction a, e, cl, past using EntryEncoder.callOn.induct generalizing s
  case case1 a e cl past cl' e' events hx hi                       =>
    subst he
    rw [EntryEncoder.callOn, hx]
    rcases h.call_step hs hc hx with ⟨outcome, rfl⟩ | ⟨s', h', hc', he'⟩
    · exact ⟨outcome, callOn_done ..⟩
    · exact hi h' he' hc'
  case case2 a e cl past hw a' e₁ events hr past' cl' e' ev hx hi =>
    subst he
    have ⟨s₁, h₁, hc₁, he₁, _⟩ := h.step_of_settle hs hc a
    rw [hr] at he₁
    subst he₁
    rw [EntryEncoder.callOn, hw, hr]
    dsimp only
    rw [hx]
    rcases h₁.call_step hs hc₁ hx with ⟨outcome, rfl⟩ | ⟨s', h', hc', he'⟩
    · exact ⟨outcome, callOn_done ..⟩
    · exact hi h' he' hc'
  case case3 a e cl past hw a' e₁ events hr hx                     =>
    subst he
    have ⟨s₁, _, _, he₁, hn⟩ := h.step_of_settle hs hc a
    rw [hr] at he₁
    exact absurd (he₁ ▸ hx) hn

theorem Live.call (hs : Stages T K F) (h : Live T K F s) {cl : Call}
    (hc : s.call = some (o, cl)) (a : σ) :
    (EntryEncoder.call a s.entry cl).value.1.isSome = true := by
  have ⟨outcome, hx⟩ := h.callOn hs rfl hc a []
  rw [EntryEncoder.call, Logged.value_bind]
  rcases hr : (EntryEncoder.callOn a s.entry cl []).value with ⟨cl', a', e'⟩
  rw [hr] at hx
  cases hx
  rfl

end Session

namespace World

-- Nobody waits for the other side in vain.
structure Unblocked (w : World σ) : Prop where
  -- While a call has to wait, in a send or for the end of the drain, the drain can take a step.
  moving   : w.session.Waits → (drainStep w.archive w.session.entry).value.1.isSome = true
  -- Who waits for the end of the drain does not keep the pipe open, with or without an abort in it.
  released : ∀ o sequel, w.session.call = some (o, .joining sequel) →
    (∃ x, w.session.entry.drain = .running x) →
      w.session.entry.pipe.writer = false ∧ w.session.entry.pipe.handles = 0
  -- The call that is being made has an outcome, and so has each that can be made.
  answered : ∀ o c, w.session.call = some (o, c) →
    (call w.archive w.session.entry c).value.1.isSome = true
  ready    : w.session.call = none → w.session.closed = false → ∀ o : Order,
    (call w.archive w.session.entry o.call).value.1.isSome = true

variable {T K : Write σ → Prop} {F : Completion Nat → Prop} {w : World σ}

theorem live_run (hs : Stages T K F) (h : w.session.Live T K F) (moves : List (Move σ)) :
    (w.run moves).session.Live T K F := by
  induction moves generalizing w
  case nil          => exact h
  case cons m ms hi =>
    refine hi ?_
    cases m
    case others => exact h
    case own t  => exact h.take hs w.archive t

theorem unblocked (hs : Stages T K F) (h : w.session.Live T K F) : w.Unblocked where
  moving hw                := h.isSome_drainStep hw w.archive
  released o sequel hc hd  := by
    have ⟨x, hx⟩ := hd
    have hp := (h.released.joining o sequel hc).resolve_left (by simp [hx])
    simpa [Pipe.isClosed] using hp
  answered o c hc          := h.call hs hc w.archive
  ready hc hn o            := by
    have ho := Session.order_of_idle hc hn o
    have h' := h.take hs w.archive (.order o)
    have hx := h'.call (o := o) hs (by rw [Session.take, ho]) w.archive
    rwa [Session.take, (w.session.entry_order o).left] at hx

end World

-- Whatever the archive is like, a write takes finitely many steps between two reads that give it
-- something. It may stop reading early, fail or crash.
theorem unblocked_of_run (a : σ) (e : EntryEncoder σ) (h : e.Created) (moves : List (Move σ)) :
    ((World.start a e).run moves).Unblocked := by
  have ⟨_, _, _, he⟩ := h
  have hl : (World.start a e).session.Live (fun _ => True) (fun _ => True) (fun _ => True) :=
    ⟨Session.start_sound .any he, Session.start_released h⟩
  exact World.unblocked .any (World.live_run .any hl moves)

-- Whoever finishes an entry at once has to wait for the drain, which has the end mark to take.
theorem unblocked_finish : ∃ (e : EntryEncoder Memory) (moves : List (Move Memory)),
    (create "a" 1 true).value = .returned (.ok e) ∧
    ((World.start ⟨{}⟩ e).run moves).session.Waits ∧
    ((World.start ⟨{}⟩ e).run moves).Unblocked := by
  refine ⟨_, [.own (.order .finish), .own .caller], rfl, ⟨.finish, .joining .report, ?_, ?_⟩, ?_⟩
  · decide +kernel
  · exact Option.isNone_iff_eq_none.1 (by decide +kernel)
  · exact unblocked_of_run _ _ ⟨"a", 1, true, rfl⟩ _

end Archive.EntryEncoder
end BitPacking
