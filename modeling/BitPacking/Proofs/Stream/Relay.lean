import BitPacking.Proofs.Schedule
import BitPacking.Proofs.Stream.Reception
import BitPacking.Proofs.Stream.Sending
import BitPacking.Stream.Relay

namespace BitPacking.Stream.Relay

inductive Side
  | producer
  | consumer
deriving DecidableEq, Repr

-- The turn of one side. Where it has to wait it leaves no trace, except that a pipe remembers a
-- reader who waits.
def take (r : Relay) : Side → Relay
  | .producer =>
    match r.produce with
    | some next => next.value
    | none      => r
  | .consumer =>
    match r.consumer.step r.pipe with
    | (some consumer, pipe) => { r with consumer, pipe }
    | (none, pipe)          => { r with pipe }

structure Over (r : Relay) : Prop where
  pushed   : r.pushed.isSome = true
  finished : r.finished.isSome = true
  decoded  : r.consumer.decoded?.isSome = true

-- Nothing has failed, and the consumer is not through before it has all values.
structure Correct (values : List UInt64) (r : Relay) : Prop where
  pushed   : r.pushed = none ∨ r.pushed = some (.ok ())
  finished : r.finished = none ∨ r.finished = some (.ok ())
  decoded  : ∀ d, r.consumer.decoded? = some d → d.values = values ∧ d.count = .ok values.length

-- The pushes end with a refusal, and the consumer is told that the stream is not complete.
structure Rejected (accepted : List UInt64) (r : Relay) : Prop where
  pushed  : r.pushed = none ∨ ∃ cause, r.pushed = some (.error cause) ∧ cause.IsRefusal
  decoded : ∀ d, r.consumer.decoded? = some d →
    (r.encoder.bytesWritten = 0 → d = ⟨[], some .truncatedInput⟩) ∧
      (r.encoder.bytesWritten ≠ 0 → d.failure = some .missingEndMarker ∧ d.values <+: accepted)

variable {c : Config} {values all accepted : List UInt64} {value : UInt64} {sent : Bytes}
variable {r : Relay} {side : Side}

-- What was sent is on its way to a consumer that goes on reading.
structure Linked (c : Config) (values : List UInt64) (sent : Bytes) (p : Pipe) (k : Reception) :
    Prop where
  clean    : p.Clean
  reader   : p.reader = true
  handles  : p.handles = 0
  consumer : ∃ got, k.Awaits c values got ∧ sent = got ++ p.content

-- The first value that is not accepted was pushed.
structure Refused (c : Config) (all accepted : List UInt64) (sent : Bytes) (r : Relay) : Prop where
  split    : ∃ v more, all = accepted ++ v :: more ∧ ¬c.Accepts v
  accepts  : ∀ v ∈ accepted, c.Accepts v
  pushed   : ∃ cause, r.pushed = some (.error cause) ∧ cause.IsRefusal
  finished : r.finished = none ∨ r.finished = some (.error .encoderAborted)
  phase    : r.encoder.phase = .aborted
  written  : r.encoder.bytesWritten = sent.length

inductive Sound (c : Config) (all : List UInt64) (r : Relay) : Prop
  | sending {done : List UInt64} {sent : Bytes} (hv : all = done ++ r.values)
      (hp : r.pushed = none ∨ r.pushed = some (.ok ()) ∧ r.values = []) (hf : r.finished = none)
      (he : r.encoder.Sending c done sent) (hw : r.pipe.writer = true)
      (hl : Linked c done sent r.pipe r.consumer)
  | sent {sent : Bytes} (ha : ∀ v ∈ all, c.Accepts v) (hp : r.pushed = some (.ok ()))
      (hf : r.finished = some (.ok ())) (hs : Whole c all sent) (hw : r.pipe.writer = false)
      (hl : Linked c all sent r.pipe r.consumer)
  | delivered (ha : ∀ v ∈ all, c.Accepts v) (hp : r.pushed = some (.ok ()))
      (hf : r.finished = some (.ok ())) (hc : r.consumer = .done ⟨all, none⟩)
  | refused {accepted : List UInt64} {sent : Bytes} (hr : r.Refused c all accepted sent)
      (hu : Unfinished c accepted sent) (hw : r.pipe.writer = false)
      (hl : Linked c accepted sent r.pipe r.consumer)
  | truncated {accepted : List UInt64} (hr : r.Refused c all accepted [])
      (hc : r.consumer = .done ⟨[], some .truncatedInput⟩)
  | cut {accepted front : List UInt64} {sent : Bytes} (hr : r.Refused c all accepted sent)
      (hs : sent ≠ []) (hp : front <+: accepted)
      (hc : r.consumer = .done ⟨front, some .missingEndMarker⟩)

theorem new_sound {e : Encoder} (he : Encoder.ofConfig c = .ok e) (capacity : Nat)
    (values : List UInt64) : Sound c values (new e capacity c.containsZero values) := by
  refine .sending rfl (.inl rfl) rfl (Encoder.ofConfig_sending he) rfl ?_
  exact ⟨Pipe.ofCapacity_clean capacity, rfl, rfl, [], Reception.new_awaits c, rfl⟩

variable {p p' : Pipe} {k : Reception}

theorem Linked.takes {block : Bytes} (hl : Linked c accepted sent p k) (ht : p.Takes block p')
    (hv : accepted <+: values) : Linked c values (sent ++ block) p' k := by
  have ⟨hc, he, hh⟩ := hl.clean.takes ht
  have ⟨got, hk, hs⟩ := hl.consumer
  refine ⟨hc, hh.reader.trans hl.reader, hh.handles.trans hl.handles, got, hk.mono hv, ?_⟩
  rw [he, hs, List.append_assoc]

theorem Linked.close (hl : Linked c values sent p k) : Linked c values sent p.close k :=
  ⟨⟨hl.clean.aborted, hl.clean.queue⟩, hl.reader, hl.handles, hl.consumer⟩

theorem Linked.isClosed (hl : Linked c values sent p k) (hw : p.writer = false) :
    p.isClosed = true := by
  simp [Pipe.isClosed, hw, hl.handles]

theorem Linked.not_done (hl : Linked c values sent p k) : k.decoded? = none := by
  have ⟨_, hk, _⟩ := hl.consumer
  exact hk.not_done

theorem produce_push {v : UInt64} {vs done : List UInt64} (hv : r.values = v :: vs)
    (hall : all = done ++ r.values) (hp : r.pushed = none) (hf : r.finished = none)
    (he : r.encoder.Sending c done sent) (hw : r.pipe.writer = true)
    (hl : Linked c done sent r.pipe r.consumer) :
    (∃ next, r.produce = some next ∧ Sound c all next.value) ∨
      (r.produce = none ∧ r.pipe.hasRoom = false) := by
  have hx := he.push hw v
  rw [hv] at hall
  simp only [produce, hp, hv]
  rcases hpush : r.encoder.push r.pipe v with ⟨x, events⟩
  rw [hpush] at hx
  cases hx
  case stored ha ht hs              =>
    refine .inl ⟨_, rfl, .sending ?_ (.inl rfl) hf hs ?_ (hl.takes ht (List.prefix_append ..))⟩
    · rw [hall, List.append_assoc]
      rfl
    · exact (hl.clean.takes ht).right.right.writer.trans hw
  case refused cause ha hc he' hb   =>
    have hu := he.running.unfinished
    rw [Encoder.accepted_holding] at hu
    have hr : Refused c all done sent
        { r with encoder := _, pipe := r.pipe.close, values := [], pushed := some (.error cause) } :=
      ⟨⟨v, vs, hall, ha⟩, he.running.accepts, ⟨cause, rfl, hc⟩, .inl hf, he', hb⟩
    refine .inl ⟨⟨_, events⟩, ?_, .refused hr hu rfl hl.close⟩
    cases cause
    case io => cases hc
    all_goals rfl
  case waiting hr hh                => exact .inr ⟨rfl, hh⟩
  case gone hr _ _                  => rw [hl.reader] at hr; cases hr

theorem produce_finish {done : List UInt64} (hv : r.values = []) (hall : all = done ++ r.values)
    (hp : r.pushed = some (.ok ())) (hf : r.finished = none)
    (he : r.encoder.Sending c done sent) (hw : r.pipe.writer = true)
    (hl : Linked c done sent r.pipe r.consumer) :
    (∃ next, r.produce = some next ∧ Sound c all next.value) ∨
      (r.produce = none ∧ r.pipe.hasRoom = false) := by
  have hx := he.finish hw
  rw [hv, List.append_nil] at hall
  subst hall
  simp only [produce, hp, hf]
  generalize hfin : r.encoder.finish r.pipe = x at hx
  cases hx
  case whole rest hb hr hh hwhole he' hn =>
    have ht := Pipe.Takes.chunk hb hr hh
    have hl' := (hl.takes ht List.prefix_rfl).close
    exact .inl ⟨_, rfl, .sent he.running.accepts rfl rfl hwhole rfl hl'⟩
  case waiting hr hh                     => exact .inr ⟨rfl, hh⟩
  case gone hr _                         => rw [hl.reader] at hr; cases hr

theorem Refused.produce (hr : r.Refused c all accepted sent) :
    r.produce = some (pure { r with finished := some (.error .encoderAborted) }) ∨
      (r.produce = none ∧ r.finished.isSome = true) := by
  have ⟨cause, hp, _⟩ := hr.pushed
  cases hr.finished
  case inl hf =>
    have hx := Encoder.finish_aborted hr.phase r.pipe
    exact .inl (by simp only [Relay.produce, hp, hf, hx])
  case inr hf => exact .inr ⟨by simp only [Relay.produce, hp, hf], by rw [hf]; rfl⟩

theorem Refused.finish (hr : r.Refused c all accepted sent) :
    Refused c all accepted sent { r with finished := some (.error .encoderAborted) } :=
  ⟨hr.split, hr.accepts, hr.pushed, .inr rfl, hr.phase, hr.written⟩

theorem Sound.produce (h : Sound c all r) :
    (∃ next, r.produce = some next ∧ Sound c all next.value) ∨
      (r.produce = none ∧ (r.finished.isSome = true ∨
        r.pipe.hasRoom = false ∧ r.consumer.decoded? = none)) := by
  cases h
  case sending done sent hv hp hf he hw hl =>
    have hidle (h : r.produce = none ∧ r.pipe.hasRoom = false) :
        r.produce = none ∧ (r.finished.isSome = true ∨
          r.pipe.hasRoom = false ∧ r.consumer.decoded? = none) :=
      ⟨h.left, .inr ⟨h.right, hl.not_done⟩⟩
    rcases hp with hp | ⟨hp, hn⟩
    · match hvs : r.values with
      | v :: vs => exact (produce_push hvs hv hp hf he hw hl).imp_right hidle
      | []      =>
        have hx : r.produce = some (pure { r with pushed := some (.ok ()) }) := by
          simp only [Relay.produce, hp, hvs]
        exact .inl ⟨_, hx, .sending hv (.inr ⟨rfl, hvs⟩) hf he hw hl⟩
    · exact (produce_finish hn hv hp hf he hw hl).imp_right hidle
  case sent hp hf _ _ _  => exact .inr ⟨by simp only [Relay.produce, hp, hf], .inl (by simp [hf])⟩
  case delivered hp hf _ => exact .inr ⟨by simp only [Relay.produce, hp, hf], .inl (by simp [hf])⟩
  case refused hr hu hw hl =>
    rcases hr.produce with hx | ⟨hx, hf⟩
    · exact .inl ⟨_, hx, .refused hr.finish hu hw hl⟩
    · exact .inr ⟨hx, .inl hf⟩
  case truncated hr hc     =>
    rcases hr.produce with hx | ⟨hx, hf⟩
    · exact .inl ⟨_, hx, .truncated hr.finish hc⟩
    · exact .inr ⟨hx, .inl hf⟩
  case cut hr hs hp hc     =>
    rcases hr.produce with hx | ⟨hx, hf⟩
    · exact .inl ⟨_, hx, .cut hr.finish hs hp hc⟩
    · exact .inr ⟨hx, .inl hf⟩

theorem Refused.settle (hr : r.Refused c all accepted sent) :
    Refused c all accepted sent { r with consumer := k, pipe := p } :=
  ⟨hr.split, hr.accepts, hr.pushed, hr.finished, hr.phase, hr.written⟩

theorem Linked.receive (hl : Linked c values sent p k) (ha : ∀ v ∈ values, c.Accepts v)
    (hw : Whole c values sent ∨ Unfinished c values sent) :
    Reception.Receiving c values sent p (k.step p) := by
  have ⟨_, hk, hs⟩ := hl.consumer
  exact hk.step ha hl.clean hs hw

theorem Linked.more {got : Bytes} (hl : Linked c values sent p k) {k' : Reception}
    (h : k'.Awaits c values got) (hs : sent = got ++ p'.content) (hc : p'.Clean)
    (hh : p.SameHands p') : Linked c values sent p' k' :=
  ⟨hc, hh.reader.trans hl.reader, hh.handles.trans hl.handles, got, h, hs⟩

theorem Linked.waiting (hl : Linked c values sent p k) :
    Linked c values sent { p with waiting := true } k :=
  ⟨⟨hl.clean.aborted, hl.clean.queue⟩, hl.reader, hl.handles, hl.consumer⟩

theorem step_done (d : Decoded) (p : Pipe) : (Reception.done d).step p = (none, p) :=
  rfl

-- What the consumer does is right, and where it has nothing to read the producer has not finished.
theorem Sound.consume (h : Sound c all r) :
    (∃ k p, r.consumer.step r.pipe = (some k, p) ∧
        Sound c all { r with consumer := k, pipe := p }) ∨
      (∃ p, r.consumer.step r.pipe = (none, p) ∧ Sound c all { r with pipe := p } ∧
        (r.consumer.decoded?.isSome = true ∨
          r.finished = none ∧ r.pipe.queue = [] ∧ p.waiting = true)) := by
  have hdone {d : Decoded} (hc : r.consumer = .done d) :
      ∃ p, r.consumer.step r.pipe = (none, p) ∧ Sound c all { r with pipe := p } ∧
        (r.consumer.decoded?.isSome = true ∨
          r.finished = none ∧ r.pipe.queue = [] ∧ p.waiting = true) :=
    ⟨r.pipe, by rw [hc, step_done], h, .inl (by rw [hc]; rfl)⟩
  cases h
  -- As long as the producer has more to send, what was sent is no whole stream.
  case sending done sent hv hp hf he hw hl =>
    have hu := he.running.unfinished
    rw [Encoder.accepted_holding] at hu
    have hx := hl.receive he.running.accepts (.inr hu)
    have ho : r.pipe.isClosed = false := by simp [Pipe.isClosed, hw]
    generalize hstep : r.consumer.step r.pipe = x at hx
    cases hx
    case more k p' got h hs hc hh =>
      exact .inl ⟨k, p', rfl, .sending hv hp hf he (hh.writer.trans hw) (hl.more h hs hc hh)⟩
    case whole hwhole             => exact absurd hu hwhole.not_unfinished
    case truncated hc _           => rw [ho] at hc; cases hc
    case cut hc _ _ _             => rw [ho] at hc; cases hc
    case waiting hq               =>
      exact .inr ⟨_, rfl, .sending hv hp hf he hw hl.waiting, .inr ⟨hf, hq, rfl⟩⟩
  -- All is sent, so that the pipe ends with the end mark.
  case sent sent ha hp hf hwhole hw hl =>
    have hx := hl.receive ha (.inl hwhole)
    have ho := hl.isClosed hw
    generalize hstep : r.consumer.step r.pipe = x at hx
    cases hx
    case more k p' got h hs hc hh =>
      exact .inl ⟨k, p', rfl, .sent ha hp hf hwhole (hh.writer.trans hw) (hl.more h hs hc hh)⟩
    case whole p' _               => exact .inl ⟨_, p', rfl, .delivered ha hp hf rfl⟩
    case truncated hs             => exact absurd (.inl hs) hwhole.not_unfinished
    case cut hu _                 => exact absurd hu hwhole.not_unfinished
    case waiting hc _             => rw [ho] at hc; cases hc
  case delivered hc => exact .inr (hdone hc)
  -- The pipe is closed behind a stream that breaks off, which the consumer finds out.
  case refused accepted sent hr hu hw hl =>
    have hx := hl.receive hr.accepts (.inr hu)
    have ho := hl.isClosed hw
    generalize hstep : r.consumer.step r.pipe = x at hx
    cases hx
    case more k p' got h hs hc hh  =>
      exact .inl ⟨k, p', rfl, .refused hr.settle hu (hh.writer.trans hw) (hl.more h hs hc hh)⟩
    case whole hwhole              => exact absurd hu hwhole.not_unfinished
    case truncated p' _ hs         =>
      exact .inl ⟨_, p', rfl, .truncated (hs ▸ hr).settle rfl⟩
    case cut p' front _ hs _ hp    => exact .inl ⟨_, p', rfl, .cut hr.settle hs hp rfl⟩
    case waiting hc _              => rw [ho] at hc; cases hc
  case truncated hc        => exact .inr (hdone hc)
  case cut hc              => exact .inr (hdone hc)

theorem Sound.take (h : Sound c all r) (side : Side) : Sound c all (r.take side) := by
  cases side
  case producer =>
    rcases h.produce with ⟨next, hx, hs⟩ | ⟨hx, _⟩
    · simpa only [Relay.take, hx] using hs
    · simpa only [Relay.take, hx] using h
  case consumer =>
    rcases h.consume with ⟨k, p, hx, hs⟩ | ⟨p, hx, hs, _⟩
    · simpa only [Relay.take, hx] using hs
    · simpa only [Relay.take, hx] using hs

theorem Sound.correct (h : Sound c all r) (ha : ∀ v ∈ all, c.Accepts v) : r.Correct all := by
  have hrefused {accepted : List UInt64} {sent : Bytes} (hr : r.Refused c all accepted sent) :
      False := by
    have ⟨v, more, hv, hn⟩ := hr.split
    exact hn (ha v (hv ▸ List.mem_append_right _ List.mem_cons_self))
  cases h
  case sending hp hf _ _ hl    =>
    exact ⟨hp.imp id And.left, .inl hf, fun d hd => by rw [hl.not_done] at hd; cases hd⟩
  case sent hp hf _ _ hl       =>
    exact ⟨.inr hp, .inr hf, fun d hd => by rw [hl.not_done] at hd; cases hd⟩
  case delivered hp hf hc      =>
    refine ⟨.inr hp, .inr hf, fun d hd => ?_⟩
    rw [hc] at hd
    cases hd
    exact ⟨rfl, rfl⟩
  case refused hr _ _ _        => exact (hrefused hr).elim
  case truncated hr _          => exact (hrefused hr).elim
  case cut hr _ _ _            => exact (hrefused hr).elim

theorem split_unique {accepted accepted' more more' : List UInt64} {v v' : UInt64}
    (h : accepted ++ v :: more = accepted' ++ v' :: more') (ha : ∀ v ∈ accepted, c.Accepts v)
    (ha' : ∀ v ∈ accepted', c.Accepts v) (hv : ¬c.Accepts v) (hv' : ¬c.Accepts v') :
    accepted = accepted' := by
  rcases List.append_eq_append_iff.1 h with ⟨xs, hx, hy⟩ | ⟨xs, hx, hy⟩
  · cases xs
    case nil       => rw [hx, List.append_nil]
    case cons x xs =>
      cases hy
      exact absurd (ha' v (hx ▸ List.mem_append_right _ List.mem_cons_self)) hv
  · cases xs
    case nil       => rw [hx, List.append_nil]
    case cons x xs =>
      cases hy
      exact absurd (ha v' (hx ▸ List.mem_append_right _ List.mem_cons_self)) hv'

theorem Sound.rejected {v : UInt64} {more : List UInt64} (h : Sound c all r)
    (hs : all = accepted ++ v :: more) (ha : ∀ v ∈ accepted, c.Accepts v) (hv : ¬c.Accepts v) :
    r.Rejected accepted := by
  have hmem : v ∈ all := hs ▸ List.mem_append_right _ List.mem_cons_self
  have hsame {accepted' : List UInt64} {sent : Bytes} (hr : r.Refused c all accepted' sent) :
      accepted' = accepted := by
    have ⟨v', more', hs', hv'⟩ := hr.split
    exact split_unique (hs'.symm.trans hs) hr.accepts ha hv' hv
  cases h
  case sending done _ hall hp hf he _ hl =>
    refine ⟨.inl ?_, fun d hd => by rw [hl.not_done] at hd; cases hd⟩
    rcases hp with hp | ⟨_, hn⟩
    · exact hp
    · rw [hn, List.append_nil] at hall
      exact absurd (he.running.accepts v (hall ▸ hmem)) hv
  case sent ha _ _ _ _ _          => exact absurd (ha v hmem) hv
  case delivered ha _ _ _         => exact absurd (ha v hmem) hv
  case refused hr _ _ hl          =>
    exact ⟨.inr hr.pushed, fun d hd => by rw [hl.not_done] at hd; cases hd⟩
  case truncated hr hc            =>
    refine ⟨.inr hr.pushed, fun d hd => ?_⟩
    rw [hc] at hd
    cases hd
    exact ⟨fun _ => rfl, (absurd hr.written ·)⟩
  case cut hr hs hp hc            =>
    refine ⟨.inr hr.pushed, fun d hd => ?_⟩
    rw [hc] at hd
    cases hd
    refine ⟨fun h => absurd (h ▸ hr.written) ?_, fun _ => ⟨rfl, hsame hr ▸ hp⟩⟩
    exact fun h => hs (List.length_eq_zero_iff.1 h.symm)

-- What is left to do: for the producer, for the consumer with what is in the pipe, and whether the
-- consumer has not asked for more yet.
def remaining (r : Relay) : Nat × (Nat × Nat) × Nat :=
  (r.left, (r.pipe.weight, r.consumer.rank), if r.pipe.waiting then 0 else 1)

def Closer : Relay → Relay → Prop :=
  InvImage (Prod.Lex (· < ·) (Prod.Lex (Prod.Lex (· < ·) (· < ·)) (· < ·))) remaining

theorem closer_wf : WellFounded Closer :=
  InvImage.wf remaining <| (Prod.lex Nat.lt_wfRel <|
    Prod.lex (Prod.lex Nat.lt_wfRel Nat.lt_wfRel) Nat.lt_wfRel).wf

theorem closer_of_produce {next : Logged Relay} (h : r.produce = some next) :
    Closer next.value r :=
  .left _ _ (left_produce h)

theorem closer_of_step (h : r.consumer.step r.pipe = (some k, p)) :
    Closer { r with consumer := k, pipe := p } r :=
  .right _ (.left _ _ (Reception.step_lt h))

theorem step_none (h : k.step p = (none, p')) : p' = p ∨ p' = { p with waiting := true } := by
  simp only [Reception.step] at h
  split at h
  case h_1   => cases h; exact .inl rfl
  case h_2 n =>
    split at h
    case h_2      => cases h
    case h_1 p ha =>
      cases h
      simp only [Pipe.answer] at ha
      split at ha
      case h_1 hr =>
        cases ha
        generalize he : Except.error IoError.wouldBlock = o at hr
        have hx := Pipe.reading_of_eq hr
        cases hx
        case waiting => exact .inr rfl
        all_goals cases he
      all_goals cases ha

theorem take_closer (r : Relay) (side : Side) : r.take side = r ∨ Closer (r.take side) r := by
  cases side
  case producer =>
    match hx : r.produce with
    | some next => exact .inr (by simpa only [Relay.take, hx] using closer_of_produce hx)
    | none      => exact .inl (by simp only [Relay.take, hx])
  case consumer =>
    match hx : r.consumer.step r.pipe with
    | (some k, p) => exact .inr (by simpa only [Relay.take, hx] using closer_of_step hx)
    | (none, p)   =>
      simp only [Relay.take, hx]
      rcases step_none hx with rfl | rfl
      · exact .inl rfl
      · cases hw : r.pipe.waiting
        case true  =>
          have he : ({ r.pipe with waiting := true } : Pipe) = r.pipe := by rw [← hw]
          exact .inl (by rw [he])
        case false =>
          refine .inr (.right _ (.right _ ?_))
          simp [hw]

theorem Sound.pushed_of_finished (h : Sound c all r) (hf : r.finished.isSome = true) :
    r.pushed.isSome = true := by
  cases h
  case sending hn _ _ _      => rw [hn] at hf; cases hf
  case sent hp _ _ _ _       => rw [hp]; rfl
  case delivered hp _ _      => rw [hp]; rfl
  case refused hr _ _ _      => have ⟨_, hp, _⟩ := hr.pushed; rw [hp]; rfl
  case truncated hr _        => have ⟨_, hp, _⟩ := hr.pushed; rw [hp]; rfl
  case cut hr _ _ _          => have ⟨_, hp, _⟩ := hr.pushed; rw [hp]; rfl

-- If neither side can go on, both are through.
theorem Sound.over_of_halt (h : Sound c all r) (hh : ∀ side, r.take side = r) : r.Over := by
  -- A turn that changes nothing was no step, since a step leaves less to do.
  have hp : r.produce = none := by
    match hx : r.produce with
    | none      => rfl
    | some next =>
      have he := hh .producer
      simp only [Relay.take, hx] at he
      have hl := left_produce hx
      rw [he] at hl
      exact absurd hl (lt_irrefl _)
  have hc : r.consumer.step r.pipe = (none, r.pipe) := by
    have he := hh .consumer
    match hx : r.consumer.step r.pipe with
    | (none, p)   =>
      simp only [Relay.take, hx] at he
      rw [← congrArg Relay.pipe he]
    | (some k, p) =>
      simp only [Relay.take, hx] at he
      have hcl := closer_of_step hx
      rw [he] at hcl
      exact absurd hcl (closer_wf.irrefl.irrefl r)
  rcases h.produce with ⟨_, hx, _⟩ | ⟨_, hf⟩
  · rw [hp] at hx
    cases hx
  rcases h.consume with ⟨_, _, hx, _⟩ | ⟨_, hx, _, hd⟩
  · rw [hc] at hx
    cases hx
  rw [hc] at hx
  cases hx
  -- A full queue and a reader who waits exclude each other, also where there is no queue at all.
  rcases hf with hf | ⟨hroom, hnone⟩
  · rcases hd with hd | ⟨hn, _⟩
    · exact ⟨h.pushed_of_finished hf, hf, hd⟩
    · rw [hn] at hf
      cases hf
  · rcases hd with hd | ⟨_, hq, hw⟩
    · rw [hnone] at hd
      cases hd
    · simp [Pipe.hasRoom, hq, hw] at hroom

-- Whatever the order of the turns: if all values are accepted, nothing fails and they all arrive;
-- if one is not, the consumer is never told that the stream is complete. The sides never block each
-- other, and if none of them is passed over forever, both come to their end.
theorem verdict_of_turns {e : Encoder} (he : Encoder.ofConfig c = .ok e) (capacity : Nat)
    (values : List UInt64) (turns : Nat → Side) :
    let r := Schedule.after take (new e capacity c.containsZero values) turns
    ((∀ v ∈ values, c.Accepts v) → ∀ n, (r n).Correct values) ∧
      (∀ accepted v more, values = accepted ++ v :: more → (∀ u ∈ accepted, c.Accepts u) →
        ¬c.Accepts v → ∀ n, (r n).Rejected accepted) ∧
      (∀ n, (r n).Over ∨ ∃ side, (r n).take side ≠ r n) ∧
      (Schedule.Fair turns → ∃ n, (r n).Over) := by
  intro r
  have hs (n : Nat) : Sound c values (r n) :=
    Schedule.after_invariant (new_sound he capacity values) (fun _ side h => h.take side) turns n
  refine ⟨fun ha n => (hs n).correct ha, ?_, fun n => ?_, fun hf => ?_⟩
  · exact fun _ _ _ hv ha hn n => (hs n).rejected hv ha hn
  · by_cases hh : ∀ side, (r n).take side = r n
    case pos => exact .inl ((hs n).over_of_halt hh)
    case neg => exact .inr (not_forall.1 hh)
  · have ⟨n, hn⟩ :=
      Schedule.exists_halt closer_wf take_closer hf (new e capacity c.containsZero values)
    exact ⟨n, (hs n).over_of_halt hn⟩

def alternate (n : Nat) : Side :=
  if n % 2 = 0 then .producer else .consumer

theorem alternate_fair : Schedule.Fair alternate := by
  intro side n
  cases side
  case producer => exact ⟨2 * n, by omega, by simp [alternate]⟩
  case consumer => exact ⟨2 * n + 1, by omega, by simp [alternate]⟩

-- Three bits hold 5 and 0, but not 9, and the pipe has no room at all.
theorem verdict_of_turns_unbuffered :
    let c : Config := ⟨5, 0, true, by decide⟩
    ∃ e, Encoder.ofConfig c = .ok e ∧
      (∃ n, let r := Schedule.after take (new e 0 true [5, 0]) alternate n
        r.Over ∧ r.Correct [5, 0]) ∧
      ∃ n, let r := Schedule.after take (new e 0 true [5, 9, 0]) alternate n
        r.Over ∧ r.Rejected [5] := by
  intro c
  let e : Encoder := { config := c, writer := .ofBytes [3] }
  have he : Encoder.ofConfig c = .ok e := by decide +kernel
  have h5 : c.Accepts 5 := ⟨⟨by decide +kernel, by decide +kernel⟩, by decide +kernel⟩
  have h0 : c.Accepts 0 := ⟨⟨by decide +kernel, by decide +kernel⟩, by decide +kernel⟩
  have h9 : ¬c.Accepts 9 := fun h => absurd h.stored_lt (by decide +kernel)
  have ⟨hc, _, _, hf⟩ := verdict_of_turns he 0 [5, 0] alternate
  have ⟨_, hr, _, hf'⟩ := verdict_of_turns he 0 [5, 9, 0] alternate
  have ⟨n, hn⟩ := hf alternate_fair
  have ⟨n', hn'⟩ := hf' alternate_fair
  refine ⟨e, he, ⟨n, hn, hc ?_ n⟩, n', hn', hr [5] 9 [0] rfl ?_ h9 n'⟩
  · exact List.forall_mem_cons.2 ⟨h5, List.forall_mem_singleton.2 h0⟩
  · exact List.forall_mem_singleton.2 h5

end BitPacking.Stream.Relay
