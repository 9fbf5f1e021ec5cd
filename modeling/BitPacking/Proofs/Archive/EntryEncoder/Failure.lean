import BitPacking.Proofs.Archive.EntryEncoder.Session

namespace BitPacking.Archive.EntryEncoder

variable {σ : Type} [Archive σ]

-- Writes by what they know: `T` holds of those that were not told that their input is complete, and
-- `F` of what these come to, and `K` of all of them.
structure Stages (T K : Write σ → Prop) (F : Completion Nat → Prop) : Prop where
  begin      : ∀ name, T (begin name)
  known      : ∀ w, T w → K w
  turn       : ∀ a w, request w = .turn → T w → T (turn a w).value.2
  feed       : ∀ a w n x, request w = .input n → T w → (x = .endOfInput → n = 0) →
    T (feed a w x).2
  done       : ∀ w c, request w = .done c → T w → F c
  turn_known : ∀ a w, request w = .turn → K w → K (Archive.turn a w).value.2
  feed_known : ∀ a w n x, request w = .input n → K w → K (Archive.feed a w x).2

namespace Session

-- A drain that was not told that its input is complete, and that nobody is about to tell.
inductive Untold (T : Write σ → Prop) (F : Completion Nat → Prop) (e : EntryEncoder σ)
    (drained : Option (Completion Nat)) : Prop
  | running {w : Write σ} (h : e.drain = .running w) (hr : e.pipe.reader = true)
      (hg : e.pipe.Guarded) (ht : T w) (hd : drained = none)
  | ended {c : Completion Nat} (h : e.drain = .ended c) (hr : e.pipe.reader = false) (hf : F c)
      (hd : drained = some c)

-- A drain that gets the whole stream.
inductive Told (K : Write σ → Prop) (e : EntryEncoder σ) (drained : Option (Completion Nat)) : Prop
  | running {w : Write σ} (h : e.drain = .running w) (hk : K w) (hd : drained = none)
  | ended {c : Completion Nat} (h : e.drain = .ended c) (hd : drained = some c)

def Clear (s : Session σ) : Prop :=
  ∀ x ∈ s.outcomes, x.1.isFinal = false ∧ x.2 = .pushed

-- What the owner does while nothing has gone wrong.
inductive Working (s : Session σ) : Prop
  | idle (hc : s.call = none) (hn : s.closed = false)
  | pushing {o : Order} {values : List UInt64} (hc : s.call = some (o, .pushing values))
      (ho : o.isFinal = false) (hn : s.closed = false)
  | ending {o : Order} (hc : s.call = some (o, o.call)) (ho : o.isFinal = true)
      (hn : s.closed = true)

-- How a call goes on that has to give the entry up.
inductive Losing (s : Session σ) : Order → Sequel → Prop
  | call {o : Order} {cause : Error} (ho : o ≠ .drop) (hn : s.closed = o.isFinal)
      (he : o.isFinal = false → s.entry.encoder.phase = .aborted) : Losing s o (.fail cause)
  | drop (hn : s.closed = true) : Losing s .drop .ignore

-- What an encoder does for its owner once a push has failed.
inductive Refusing (s : Session σ) : Prop
  | idle (hc : s.call = none) (hn : s.closed = false)
  | ordered {o : Order} (hc : s.call = some (o, o.call)) (hn : s.closed = o.isFinal)
  | failing {o : Order} {c : Call} (hc : s.call = some (o, c))
      (hs : c = .aborting (.fail .encoderAborted) ∨ c = .joining (.fail .encoderAborted))
      (hn : s.closed = o.isFinal)

-- What the outcomes so far have to do with the entry.
structure Recorded (F : Completion Nat → Prop) (s : Session σ) : Prop where
  stored : ∀ o n, (o, .stored n) ∈ s.outcomes → s.drained = some (.returned (.ok n))
  failed : ∀ o cause, (o, .failed cause) ∈ s.outcomes →
    s.entry.drain = .joined ∧ ∃ c, s.drained = some c ∧ (F c ∨ ∀ n, c ≠ .returned (.ok n))
  later  : ∀ before o cause after, s.outcomes = before ++ (o, .failed cause) :: after →
    ∀ x ∈ after, x.1.values ≠ [] ∨ x.1 = .finish → x.2 = .failed .encoderAborted

inductive Sound (T K : Write σ → Prop) (F : Completion Nat → Prop) (s : Session σ) : Prop
  | going {c : Config} {values : List UInt64} {sent : Bytes}
      (he : s.entry.encoder.Sending c values sent) (hw : s.entry.pipe.writer = true)
      (hh : s.entry.pipe.handles = 1) (hd : Untold T F s.entry s.drained) (hc : s.Working)
      (ho : s.Clear)
  | failing {o : Order} {sequel : Sequel} (hc : s.call = some (o, .aborting sequel))
      (hl : s.Losing o sequel) (hh : s.entry.pipe.handles = 1) (hd : Untold T F s.entry s.drained)
      (ho : s.Clear)
  | leaving {o : Order} {sequel : Sequel} (hc : s.call = some (o, .joining sequel))
      (hl : s.Losing o sequel) (hh : s.entry.pipe.handles = 0) (hd : Untold T F s.entry s.drained)
      (ho : s.Clear)
  | completing {o : Order} {sequel : Sequel} (hc : s.call = some (o, .joining sequel))
      (hv : Winning o sequel) (hn : s.closed = true) (hd : Told K s.entry s.drained) (ho : s.Clear)
  | refusing (he : s.entry.encoder.phase = .aborted) (hh : s.entry.pipe.handles = 0)
      (hd : s.entry.drain = .joined) (hc : s.Refusing) (ho : s.Recorded F)
      (hf : ∃ o cause, (o, .failed cause) ∈ s.outcomes)
  | done (hd : s.entry.drain = .joined) (hc : s.call = none) (hn : s.closed = true)
      (ho : s.Recorded F)

variable {T K : Write σ → Prop} {F : Completion Nat → Prop} {s s' : Session σ} {a : σ}

theorem Clear.recorded (h : s.Clear) : s.Recorded F where
  stored o n hm         := by cases (h _ hm).right
  failed o cause hm     := by cases (h _ hm).right
  later before o cause after he := by
    have hm : (o, .failed cause) ∈ s.outcomes := he ▸ List.mem_append_right _ List.mem_cons_self
    cases (h _ hm).right

theorem Sound.recorded (h : Sound T K F s) : s.Recorded F := by
  cases h
  case going ho          => exact ho.recorded
  case failing ho        => exact ho.recorded
  case leaving ho        => exact ho.recorded
  case completing ho     => exact ho.recorded
  case refusing ho _     => exact ho
  case done ho           => exact ho

theorem Recorded.append {o : Order} {r : Outcome} (h : s.Recorded F)
    (ho : s'.outcomes = s.outcomes ++ [(o, r)]) (hd : s'.drained = s.drained)
    (hj : s'.entry.drain = .joined)
    (hs : ∀ n, r = .stored n → s.drained = some (.returned (.ok n)))
    (hf : ∀ cause, r = .failed cause →
      ∃ c, s.drained = some c ∧ (F c ∨ ∀ n, c ≠ .returned (.ok n)))
    (hl : (∃ o cause, (o, .failed cause) ∈ s.outcomes) → o.values ≠ [] ∨ o = .finish →
      r = .failed .encoderAborted) : s'.Recorded F where
  stored o' n hm := by
    rw [ho] at hm
    rw [hd]
    cases List.mem_append.1 hm
    case inl hm => exact h.stored o' n hm
    case inr hm => exact hs n (Prod.mk.inj (List.mem_singleton.1 hm)).right.symm
  failed o' cause hm := by
    rw [ho] at hm
    rw [hd]
    refine ⟨hj, ?_⟩
    cases List.mem_append.1 hm
    case inl hm => exact (h.failed o' cause hm).right
    case inr hm => exact hf cause (Prod.mk.inj (List.mem_singleton.1 hm)).right.symm
  later before o' cause after he := by
    rw [ho] at he
    rcases List.eq_nil_or_concat after with rfl | ⟨after, last, rfl⟩
    · exact nofun
    · rw [List.concat_eq_append, ← List.cons_append, ← List.append_assoc] at he
      have ⟨hb, hx⟩ := List.append_inj' he rfl
      cases hx
      rw [List.concat_eq_append]
      refine List.forall_mem_append.2 ⟨h.later _ _ _ _ hb, List.forall_mem_singleton.2 ?_⟩
      exact hl ⟨o', cause, hb ▸ List.mem_append_right _ List.mem_cons_self⟩

theorem start_sound (hs : Stages T K F) {name : String} {maxValue : UInt64} {containsZero : Bool}
    {e : EntryEncoder σ} (h : (create name maxValue containsZero).value = .returned (.ok e)) :
    Sound T K F (start e) := by
  have ⟨c, _, _, he, _, hd, hp⟩ := create_ok h
  have hg : e.pipe.Guarded := hp ▸ ⟨nofun, .inl rfl⟩
  exact .going he (hp ▸ rfl) (hp ▸ rfl) (.running hd (hp ▸ rfl) hg (hs.begin name) rfl)
    (.idle rfl rfl) nofun

theorem Untold.drain (hs : Stages T K F) (h : Untold T F s.entry s.drained) (a : σ) :
    Untold T F (s.drain a).2.entry (s.drain a).2.drained := by
  cases h
  case ended c hd hr hf hc      =>
    rw [drain_idle a (by simp [hd])]
    exact .ended hd hr hf hc
  case running w hd hr hg ht hn =>
    have hx := s.drain_cases a
    generalize s.drain a = x at hx
    cases hx
    case idle h                   => exact absurd hd (h w)
    case turn w' h hq             =>
      cases hd.symm.trans h
      exact .running rfl hr hg (hs.turn a w hq ht) hn
    case wait w' n pipe h hq hp   =>
      have hh := s.entry.pipe.sameHands_answer n
      rw [hp] at hh
      exact .running hd (hh.reader.trans hr) (hg.answer hp).left ht hn
    case feed w' n x pipe h hq hp =>
      cases hd.symm.trans h
      have hh := s.entry.pipe.sameHands_answer n
      rw [hp] at hh
      have ⟨hg', hz⟩ := hg.answer hp
      have ht' := hs.feed a w n x hq ht fun he => hz (he ▸ rfl)
      exact .running rfl (hh.reader.trans hr) hg' ht' hn
    case done w' c h hq           =>
      cases hd.symm.trans h
      exact .ended rfl rfl (hs.done w c hq ht) rfl

theorem Told.drain (hs : Stages T K F) (h : Told K s.entry s.drained) (a : σ) :
    Told K (s.drain a).2.entry (s.drain a).2.drained := by
  cases h
  case ended c hd hc  =>
    rw [drain_idle a (by simp [hd])]
    exact .ended hd hc
  case running w hd hk hn =>
    have hx := s.drain_cases a
    generalize s.drain a = x at hx
    cases hx
    case idle h                   => exact absurd hd (h w)
    case turn w' h hq             =>
      cases hd.symm.trans h
      exact .running rfl (hs.turn_known a w hq hk) hn
    case wait                     => exact .running hd hk hn
    case feed w' n x pipe h hq hp =>
      cases hd.symm.trans h
      exact .running rfl (hs.feed_known a w n x hq hk) hn
    case done                     => exact .ended rfl rfl

section SameOwner

variable {o : Order} {sequel : Sequel}

theorem Clear.congr (h : s.Clear) (hs : SameOwner s s') : s'.Clear := by
  rwa [Clear, hs.outcomes]

theorem Working.congr (h : s.Working) (hs : SameOwner s s') : s'.Working := by
  cases h
  case idle hc hn       => exact .idle (hs.call.trans hc) (hs.closed.trans hn)
  case pushing hc ho hn => exact .pushing (hs.call.trans hc) ho (hs.closed.trans hn)
  case ending hc ho hn  => exact .ending (hs.call.trans hc) ho (hs.closed.trans hn)

theorem Losing.congr (h : s.Losing o sequel) (hs : SameOwner s s') : s'.Losing o sequel := by
  cases h
  case call ho hn he =>
    exact .call ho (hs.closed.trans hn) fun hf => by rw [hs.encoder, he hf]
  case drop hn       => exact .drop (hs.closed.trans hn)

end SameOwner

theorem Sound.drain (hs : Stages T K F) (h : Sound T K F s) (a : σ) :
    Sound T K F (s.drain a).2 := by
  have ho := s.sameOwner_drain a
  cases h
  case going he hw hh hd hc hcl         =>
    exact .going (ho.encoder ▸ he) (ho.hands.left.trans hw) (ho.hands.right.trans hh)
      (hd.drain hs a) (hc.congr ho) (hcl.congr ho)
  case failing hc hl hh hd hcl          =>
    exact .failing (ho.call.trans hc) (hl.congr ho) (ho.hands.right.trans hh) (hd.drain hs a)
      (hcl.congr ho)
  case leaving hc hl hh hd hcl          =>
    exact .leaving (ho.call.trans hc) (hl.congr ho) (ho.hands.right.trans hh) (hd.drain hs a)
      (hcl.congr ho)
  case completing hc hv hn hd hcl       =>
    exact .completing (ho.call.trans hc) hv (ho.closed.trans hn) (hd.drain hs a) (hcl.congr ho)
  case refusing he hh hd hc hrec hf     =>
    rw [drain_idle a (by simp [hd])]
    exact .refusing he hh hd hc hrec hf
  case done hd hc hn hrec               =>
    rw [drain_idle a (by simp [hd])]
    exact .done hd hc hn hrec

theorem Sound.order (h : Sound T K F s) (o : Order) : Sound T K F (s.order o) := by
  rcases s.order_cases o with heq | ⟨hc, hn, heq⟩
  · rwa [heq]
  · rw [heq]
    cases h
    case going he hw hh hd _ hcl =>
      refine .going he hw hh hd ?_ hcl
      cases o
      case push   => exact .pushing rfl rfl rfl
      case extend => exact .pushing rfl rfl rfl
      case finish => exact .ending rfl rfl rfl
      case drop   => exact .ending rfl rfl rfl
    case failing hc' _ _ _ _        => rw [hc] at hc'; cases hc'
    case leaving hc' _ _ _ _        => rw [hc] at hc'; cases hc'
    case completing hc' _ _ _ _     => rw [hc] at hc'; cases hc'
    case refusing he hh hd _ hr hf  =>
      exact .refusing he hh hd (.ordered rfl rfl) ⟨hr.stored, hr.failed, hr.later⟩ hf
    case done hn' _                 => rw [hn] at hn'; cases hn'

section Untold

variable {e : EntryEncoder σ} {d : Option (Completion Nat)} {pipe : Pipe}

theorem Untold.takes {bytes : Bytes} (h : Untold T F e d) (ht : e.pipe.Takes bytes pipe)
    (encoder : Stream.Encoder) : Untold T F { e with encoder, pipe } d := by
  cases h
  case running hw hr hg hT hn =>
    have hg' := hg.takes ht
    cases ht
    all_goals exact .running hw hr hg' hT hn
  case ended hc hr hf hd   =>
    cases ht
    case nothing        => exact .ended hc hr hf hd
    case chunk hr' _ _  => rw [hr] at hr'; cases hr'

theorem Untold.close (h : Untold T F e d) (hh : e.pipe.handles ≠ 0) (encoder : Stream.Encoder) :
    Untold T F { e with encoder, pipe := e.pipe.close } d := by
  cases h
  case running hw hr hg hT hn => exact .running hw hr (hg.close hh) hT hn
  case ended hc hr hf hd      => exact .ended hc hr hf hd

theorem Untold.abortHandle (h : Untold T F e d) (hp : e.pipe.abortHandle = some pipe) :
    Untold T F { e with pipe } d ∧ pipe.handles = e.pipe.handles - 1 := by
  rcases abortHandle_cases e.pipe with ⟨hr, hx⟩ | ⟨hr, hx⟩ | hx
  · rw [hp] at hx
    cases hx
    cases h
    case running hr' _ _ _  => rw [hr] at hr'; cases hr'
    case ended hc hr' hf hd => exact ⟨.ended hc hr' hf hd, rfl⟩
  · rw [hp] at hx
    cases hx
    cases h
    case running hw hr' hg hT hn => exact ⟨.running hw hr' hg.abort hT hn, rfl⟩
    case ended hr' _ _           => rw [hr] at hr'; cases hr'
  · rw [hp] at hx
    cases hx

theorem Untold.told (hs : Stages T K F) (h : Untold T F e d) (encoder : Stream.Encoder)
    (pipe : Pipe) : Told K { e with encoder, pipe } d := by
  cases h
  case running hw _ _ ht hn => exact .running hw (hs.known _ ht) hn
  case ended hc _ _ hd      => exact .ended hc hd

theorem Untold.isLive (h : Untold T F e d) : e.isLive = true := by
  cases h
  case running hw _ _ _ _ => simp only [EntryEncoder.isLive, hw]
  case ended hc _ _ _     => simp only [EntryEncoder.isLive, hc]

end Untold

theorem Clear.append {o : Order} (h : s.Clear) (ho : o.isFinal = false)
    (hs : s'.outcomes = s.outcomes ++ [(o, .pushed)]) : s'.Clear := by
  rw [Clear, hs]
  exact List.forall_mem_append.2 ⟨h, List.forall_mem_singleton.2 ⟨ho, rfl⟩⟩

section going

variable {c : Config} {values : List UInt64} {sent : Bytes}

theorem caller_pushing {o : Order} {more : List UInt64}
    (he : s.entry.encoder.Sending c values sent) (hw : s.entry.pipe.writer = true)
    (hh : s.entry.pipe.handles = 1) (hd : Untold T F s.entry s.drained) (ho : s.Clear)
    (hc : s.call = some (o, .pushing more)) (hf : o.isFinal = false) (hn : s.closed = false) :
    Sound T K F s.caller := by
  have hh' : s.entry.pipe.handles ≠ 0 := by simp [hh]
  cases more
  case nil            =>
    rw [caller_done hc rfl]
    exact .going he hw hh hd (.idle rfl hn) (ho.append hf rfl)
  case cons v more    =>
    have hx := push_cases he hw v more
    have hstep : (Call.pushing (v :: more)).step s.entry = Call.push s.entry v more := rfl
    generalize hr : Call.push s.entry v more = r at hx
    rw [hr] at hstep
    cases hx
    case stored hp hs    =>
      rw [caller_step hc hstep nofun]
      refine .going hs ?_ ?_ (hd.takes hp _) (.pushing rfl hf hn) ho
      · cases hp
        all_goals exact hw
      · cases hp
        all_goals exact hh
    case failed he'      =>
      rw [caller_step hc hstep nofun]
      refine .failing rfl (.call ?_ (hn.trans hf.symm) fun _ => he') hh (hd.close hh' _) ho
      rintro rfl
      cases hf
    case waiting         =>
      rw [caller_wait hc hstep]
      exact .going he hw hh hd (.pushing hc hf hn) ho

theorem caller_ending (hs : Stages T K F) {o : Order}
    (he : s.entry.encoder.Sending c values sent) (hw : s.entry.pipe.writer = true)
    (hh : s.entry.pipe.handles = 1) (hd : Untold T F s.entry s.drained) (ho : s.Clear)
    (hc : s.call = some (o, o.call)) (hf : o.isFinal = true) (hn : s.closed = true) :
    Sound T K F s.caller := by
  have hh' : s.entry.pipe.handles ≠ 0 := by simp [hh]
  have hx := finish_cases he hw
  generalize hr : Call.finish s.entry = r at hx
  cases hx
  case whole   =>
    have ⟨_, _, hv, hstep⟩ := step_ending_ok hf hd.isLive hr
    rw [caller_step hc hstep nofun]
    exact .completing rfl hv hn (hd.told hs _ _) ho
  case gone    =>
    have ⟨_, _, hv, hstep⟩ := step_ending_error hf hd.isLive hr
    rw [caller_step hc hstep nofun]
    refine .failing rfl ?_ hh (hd.close hh' _) ho
    cases hv
    case finish => exact .call nofun hn nofun
    case drop   => exact .drop hn
  case waiting =>
    rw [caller_wait hc (step_ending_none hf hd.isLive hr)]
    exact .going he hw hh hd (.ending hc hf hn) ho

end going

section joining

variable {o : Order} {sequel : Sequel}

theorem caller_aborting (hc : s.call = some (o, .aborting sequel)) (hl : s.Losing o sequel)
    (hh : s.entry.pipe.handles = 1) (hd : Untold T F s.entry s.drained) (ho : s.Clear) :
    Sound T K F s.caller := by
  have hh' : s.entry.pipe.handles ≠ 0 := by simp [hh]
  match hp : s.entry.pipe.abortHandle with
  | none      =>
    rw [caller_wait hc (step_aborting_none hh' hp)]
    exact .failing hc hl hh hd ho
  | some pipe =>
    have ⟨hd', hz⟩ := hd.abortHandle hp
    rw [caller_step hc (step_aborting hh' hp) nofun]
    refine .leaving rfl ?_ (by rw [hz, hh]) hd' ho
    cases hl
    case call ho hn he => exact .call ho hn he
    case drop hn       => exact .drop hn

theorem Clear.not_failed (h : s.Clear) : ¬∃ o cause, (o, Outcome.failed cause) ∈ s.outcomes := by
  rintro ⟨o, cause, hm⟩
  cases (h _ hm).right

theorem caller_leaving (hc : s.call = some (o, .joining sequel)) (hl : s.Losing o sequel)
    (hh : s.entry.pipe.handles = 0) (hd : Untold T F s.entry s.drained) (ho : s.Clear) :
    Sound T K F s.caller := by
  cases hd
  case running hw hr hg ht hn =>
    rw [caller_wait hc (step_joining_running hw sequel)]
    exact .leaving hc hl hh (.running hw hr hg ht hn) ho
  case ended x hx hr hf hd    =>
    rw [caller_done hc (step_joining hx sequel)]
    cases hl
    case drop hn           =>
      exact .done rfl rfl hn (ho.recorded.append rfl rfl rfl nofun nofun (absurd · ho.not_failed))
    case call cause _ hn he =>
      have hrec : Recorded F { s with
          entry    := { s.entry with drain := .joined }
          call     := none
          outcomes := s.outcomes ++ [(o, .failed cause)] } :=
        ho.recorded.append rfl rfl rfl nofun (fun _ _ => ⟨x, hd, .inl hf⟩)
          (absurd · ho.not_failed)
      cases hfin : o.isFinal
      case true  => exact .done rfl rfl (hn.trans hfin) hrec
      case false =>
        refine .refusing (he hfin) hh rfl (.idle rfl (hn.trans hfin)) hrec ⟨o, cause, ?_⟩
        exact List.mem_append_right _ (List.mem_singleton_self _)

-- Success is told on the word of the drain only, and failure if the drain tells of one.
theorem outcome_report (name : String) (x : Completion Nat) (hv : Winning o sequel) :
    (∀ n, (sequel.outcome name x).value = .stored n → x = .returned (.ok n)) ∧
      ∀ cause, (sequel.outcome name x).value = .failed cause → ∀ n, x ≠ .returned (.ok n) := by
  cases hv
  case finish =>
    match x with
    | .returned (.ok n)    => exact ⟨fun _ h => by cases h; rfl, nofun⟩
    | .returned (.error e) => exact ⟨nofun, fun _ _ => nofun⟩
    | .crashed             => exact ⟨nofun, fun _ _ => nofun⟩
  case drop   =>
    match x with
    | .returned (.ok n)    => exact ⟨nofun, nofun⟩
    | .returned (.error e) => exact ⟨nofun, nofun⟩
    | .crashed             => exact ⟨nofun, nofun⟩

theorem caller_completing (hc : s.call = some (o, .joining sequel)) (hv : Winning o sequel)
    (hn : s.closed = true) (hd : Told K s.entry s.drained) (ho : s.Clear) :
    Sound T K F s.caller := by
  cases hd
  case running hw hk hd =>
    rw [caller_wait hc (step_joining_running hw sequel)]
    exact .completing hc hv hn (.running hw hk hd) ho
  case ended x hx hd    =>
    have ⟨hst, hfl⟩ := outcome_report s.entry.name x hv
    rw [caller_done hc (step_joining hx sequel)]
    refine .done rfl rfl hn (ho.recorded.append rfl rfl rfl ?_ ?_ (absurd · ho.not_failed))
    · intro n h
      rw [hd, hst n h]
    · exact fun cause h => ⟨x, hd, .inr (hfl cause h)⟩

theorem caller_refusing (he : s.entry.encoder.phase = .aborted) (hh : s.entry.pipe.handles = 0)
    (hd : s.entry.drain = .joined) (hc : s.Refusing) (ho : s.Recorded F)
    (hf : ∃ o cause, (o, .failed cause) ∈ s.outcomes) : Sound T K F s.caller := by
  have hf' {o' : Order} {r : Outcome} :
      ∃ o cause, (o, .failed cause) ∈ s.outcomes ++ [(o', r)] := by
    have ⟨o, cause, hm⟩ := hf
    exact ⟨o, cause, List.mem_append_left _ hm⟩
  have hend {o : Order} {r : Outcome} (hn : s.closed = o.isFinal)
      (hr : Recorded F { s with call := none, outcomes := s.outcomes ++ [(o, r)] }) :
      Sound T K F { s with call := none, outcomes := s.outcomes ++ [(o, r)] } := by
    cases hfin : o.isFinal
    case true  => exact .done hd rfl (hn.trans hfin) hr
    case false => exact .refusing he hh hd (.idle rfl (hn.trans hfin)) hr hf'
  have ⟨_, _, hm⟩ := hf
  have hdr := (ho.failed _ _ hm).right
  cases hc
  case idle hc hn      =>
    rw [caller_none hc]
    exact .refusing he hh hd (.idle hc hn) ho hf
  case ordered o hc hn =>
    rcases step_refusing he hd o with ⟨_, _, hstep⟩ | ⟨hv, r, hstep, hr⟩
    · rw [caller_step hc hstep nofun]
      exact .refusing he hh hd (.failing rfl (.inl rfl) hn) ⟨ho.stored, ho.failed, ho.later⟩ hf
    · rw [caller_done hc hstep]
      refine hend hn (ho.append rfl rfl hd ?_ ?_ fun _ => (absurd · hv))
      · rintro n rfl
        simp at hr
      · exact fun _ _ => hdr
  case failing o c hc hs hn =>
    rcases hs with rfl | rfl
    · rw [caller_step hc (step_aborting_again hh) nofun]
      exact .refusing he hh hd (.failing rfl (.inr rfl) hn) ⟨ho.stored, ho.failed, ho.later⟩ hf
    · rw [caller_done hc (step_joining_again hd _)]
      exact hend hn (ho.append rfl rfl hd nofun (fun _ _ => hdr) fun _ _ => rfl)

end joining

theorem Sound.caller (hs : Stages T K F) (h : Sound T K F s) : Sound T K F s.caller := by
  cases h
  case going he hw hh hd hc ho      =>
    cases hc
    case idle hc hn        =>
      rw [caller_none hc]
      exact .going he hw hh hd (.idle hc hn) ho
    case pushing hc hf hn  => exact caller_pushing he hw hh hd ho hc hf hn
    case ending hc hf hn   => exact caller_ending hs he hw hh hd ho hc hf hn
  case failing hc hl hh hd ho       => exact caller_aborting hc hl hh hd ho
  case leaving hc hl hh hd ho       => exact caller_leaving hc hl hh hd ho
  case completing hc hv hn hd ho    => exact caller_completing hc hv hn hd ho
  case refusing he hh hd hc ho hf   => exact caller_refusing he hh hd hc ho hf
  case done hd hc hn ho             =>
    rw [caller_none hc]
    exact .done hd hc hn ho

theorem Sound.take (hs : Stages T K F) (h : Sound T K F s) (a : σ) (t : Turn) :
    Sound T K F (s.take a t).2 := by
  cases t
  case order o => exact h.order o
  case caller  => exact h.caller hs
  case drain   => exact h.drain hs a

-- A drain that is running has not come to anything yet, and its write is one of those that are
-- known.
theorem Sound.running (hs : Stages T K F) (h : Sound T K F s) {w : Write σ}
    (hw : s.entry.drain = .running w) : K w ∧ s.drained = none := by
  have hu (hd : Untold T F s.entry s.drained) : K w ∧ s.drained = none := by
    cases hd
    case running hw' _ _ ht hn => cases hw'.symm.trans hw; exact ⟨hs.known _ ht, hn⟩
    case ended hx _ _ _        => cases hx.symm.trans hw
  cases h
  case going hd _ _          => exact hu hd
  case failing hd _          => exact hu hd
  case leaving hd _          => exact hu hd
  case completing hd _       =>
    cases hd
    case running hw' hk hn => cases hw'.symm.trans hw; exact ⟨hk, hn⟩
    case ended hx _        => cases hx.symm.trans hw
  case refusing hd _ _ _     => cases hd.symm.trans hw
  case done hd _ _ _         => cases hd.symm.trans hw

-- Once a call has failed, no call has to wait for anything.
theorem Sound.never_waits (h : Sound T K F s) (hf : ∃ o cause, (o, .failed cause) ∈ s.outcomes)
    {o : Order} {c : Call} (hc : s.call = some (o, c)) : (c.step s.entry).isSome = true := by
  cases h
  case going ho                     => exact absurd hf ho.not_failed
  case failing ho                   => exact absurd hf ho.not_failed
  case leaving ho                   => exact absurd hf ho.not_failed
  case completing ho                => exact absurd hf ho.not_failed
  case done hn _ _                  => rw [hc] at hn; cases hn
  case refusing he hh hd hr _ _     =>
    cases hr
    case idle hn _           => rw [hc] at hn; cases hn
    case ordered o' hc' _    =>
      cases hc.symm.trans hc'
      rcases step_refusing he hd o with ⟨_, _, hstep⟩ | ⟨_, _, hstep, _⟩
      · rw [hstep]; rfl
      · rw [hstep]; rfl
    case failing hc' hs _    =>
      cases hc.symm.trans hc'
      rcases hs with rfl | rfl
      · rw [step_aborting_again hh]; rfl
      · rw [step_joining_again hd]; rfl

end Session
end BitPacking.Archive.EntryEncoder
