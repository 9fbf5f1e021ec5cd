import BitPacking.Proofs.Archive.EntryEncoder.Failure

namespace BitPacking.Archive

def stored? {σ : Type} [Archive σ] (a : σ) (name : String) : Option (Except Error Bytes) :=
  if contains a name then some (read a name) else none

theorem stored?_congr {σ : Type} [Archive σ] {a a' : σ} {name : String}
    (hc : contains a' name = contains a name)
    (hr : contains a name = true → read a' name = read a name) :
    stored? a' name = stored? a name := by
  rw [stored?, stored?, hc]
  split
  case isTrue h => rw [hr h]
  case isFalse  => rfl

theorem read_of_stored? {σ : Type} [Archive σ] {a : σ} {name : String} {r : Except Error Bytes}
    (h : stored? a name = some r) : read a name = r := by
  rw [stored?] at h
  split at h
  case isTrue  => exact Option.some.inj h
  case isFalse => cases h

theorem contains_of_stored? {σ : Type} [Archive σ] {a : σ} {name : String}
    {r : Except Error Bytes} (h : stored? a name = some r) : contains a name = true := by
  rw [stored?] at h
  split at h
  case isTrue hc => exact hc
  case isFalse   => cases h

namespace EntryEncoder

variable {σ : Type} [Archive σ]

-- What the write of an entry has been given: some content, or all of it, or who knows what.
inductive Progress
  | taking (got : Bytes)
  | given (content : Bytes)
  | lost

inductive Progress.Fed : Progress → Source.Answer → Progress → Prop
  | data {got : Bytes} (bytes : Bytes) : Fed (taking got) (.data bytes) (taking (got ++ bytes))
  | ended {got : Bytes}                : Fed (taking got) .endOfInput (given got)
  | lost (x : Source.Answer)           : Fed lost x lost

-- What a turn leads to: a write that was given everything is over, with its entry stored.
def Progress.Turned (At : Progress → σ → Write σ → Prop) (name : String) (a : σ) (w : Write σ) :
    Progress → Prop
  | given content => request w = .done (.returned (.ok content.length)) ∧
      stored? a name = some (.ok content)
  | p             => At p a w

-- How the writes of entries with different names keep out of each other's way.
structure Discipline (σ : Type) [Archive σ] where
  -- The names that it is made for.
  Plain : String → Prop
  -- The archive has what it takes for some more writes.
  Ready : Nat → σ → Prop
  -- A write with some progress is in order.
  At    : String → Progress → σ → Write σ → Prop
  -- The archive before and after a step of a write.
  Apart : String → σ → σ → Prop
  -- Whether a write has yet to make use of what the archive has ready for it.
  fresh : Write σ → Nat
  less  : ∀ {k k' a}, k ≤ k' → Ready k' a → Ready k a
  begin : ∀ {name} a, Plain name → At name (.taking []) a (begin name) ∧ fresh (begin name) ≤ 1
  asks  : ∀ {name got a w}, At name (.taking got) a w →
    request w = .turn ∨ ∃ n ≠ 0, request w = .input n
  ends  : ∀ {name content a w}, At name (.given content) a w → request w = .turn
  lose  : ∀ {name p a w}, At name p a w → At name .lost a w
  turn  : ∀ {name p a w k}, At name p a w → request w = .turn → Ready (fresh w + k) a →
    Ready (fresh (turn a w).value.2 + k) (turn a w).value.1 ∧ Apart name a (turn a w).value.1 ∧
      p.Turned (At name) name (turn a w).value.1 (turn a w).value.2
  feed  : ∀ {name p p' a w n x k}, At name p a w → request w = .input n → p.Fed x p' →
    Ready (fresh w + k) a → Ready (fresh (feed a w x).2 + k) (feed a w x).1 ∧
      Apart name a (feed a w x).1 ∧ At name p' (feed a w x).1 (feed a w x).2
  stays : ∀ {name name' p a a' w}, Apart name a a' → Plain name → name' ≠ name →
    At name' p a w → At name' p a' w
  entry : ∀ {name a a'}, Apart name a a' → Plain name → ∀ name' ≠ name,
    stored? a' name' = stored? a name'

variable {D : Discipline σ} {name : String} {c : Config} {a a' : σ} {k : Nat}

def Discipline.due (D : Discipline σ) (e : EntryEncoder σ) : Nat :=
  match e.drain with
  | .running w => D.fresh w
  | _          => 0

theorem Order.values_of_isFinal {o : Order} (h : o.isFinal = true) : o.values = [] := by
  cases o
  case finish | drop => rfl
  all_goals cases h

theorem Winning.isFinal {o : Order} {sequel : Sequel} (hv : Winning o sequel) :
    o.isFinal = true := by
  cases hv
  all_goals rfl

namespace Session

variable {s s' : Session σ}

-- A drain that does what it may.
def Orderly (D : Discipline σ) (name : String) (a : σ) (s : Session σ) : Prop :=
  ∀ w, s.entry.drain = .running w → D.At name .lost a w

-- What a step of a drain does to the archive.
structure Behaves (D : Discipline σ) (name : String) (k : Nat) (a : σ) (x : σ × Session σ) :
    Prop where
  apart   : x.1 = a ∨ D.Apart name a x.1
  ready   : D.Ready (D.due x.2.entry + k) x.1
  orderly : x.2.Orderly D name x.1

theorem Orderly.drain (h : s.Orderly D name a) (hr : D.Ready (D.due s.entry + k) a) :
    Behaves D name k a (s.drain a) := by
  have hx := s.drain_cases a
  generalize s.drain a = x at hx
  cases hx
  case idle                  => exact ⟨.inl rfl, hr, h⟩
  case wait w n pipe hw hq _ =>
    refine ⟨.inl rfl, ?_, fun w' hw' => h w' hw'⟩
    simpa only [Discipline.due] using hr
  case turn w hw hq          =>
    rw [Discipline.due, hw] at hr
    have ⟨hr', ha, hl⟩ := D.turn (h w hw) hq hr
    exact ⟨.inr ha, hr', fun w' hw' => by cases hw'; exact hl⟩
  case feed w n x pipe hw hq _ =>
    rw [Discipline.due, hw] at hr
    have ⟨hr', ha, hl⟩ := D.feed (h w hw) hq (.lost x) hr
    exact ⟨.inr ha, hr', fun w' hw' => by cases hw'; exact hl⟩
  case done w c hw hq        =>
    rw [Discipline.due, hw] at hr
    exact ⟨.inl rfl, D.less (Nat.add_le_add_right (Nat.zero_le _) k) hr, nofun⟩

theorem Orderly.apart (h : s.Orderly D name a) {other : String} (ha : D.Apart other a a')
    (ho : D.Plain other) (hn : name ≠ other) : s.Orderly D name a' :=
  fun w hw => D.stays ha ho hn (h w hw)

def pushed (s : Session σ) : List UInt64 :=
  s.outcomes.flatMap (·.1.values)

-- A drain that was given a part of what was sent, while the rest is in the pipe.
structure Supplied (D : Discipline σ) (name : String) (sent : Bytes) (a : σ) (e : EntryEncoder σ)
    (w : Write σ) (got : Bytes) : Prop where
  drain  : e.drain = .running w
  reader : e.pipe.reader = true
  clean  : e.pipe.Clean
  write  : D.At name (.taking got) a w
  sent   : sent = got ++ e.pipe.content

-- A drain that has or gets everything there is.
inductive Delivering (D : Discipline σ) (name : String) (content : Bytes) (a : σ)
    (e : EntryEncoder σ) : Prop
  | taking {w : Write σ} {got : Bytes} (h : Supplied D name content a e w got)
      (hc : e.pipe.isClosed = true)
  | given {w : Write σ} (h : e.drain = .running w) (hw : D.At name (.given content) a w)
  | stored {w : Write σ} (h : e.drain = .running w)
      (hr : request w = .done (.returned (.ok content.length)))
      (hk : stored? a name = some (.ok content))
  | ended (h : e.drain = .ended (.returned (.ok content.length)))
      (hk : stored? a name = some (.ok content))

-- What the owner is doing, where the stream has come to some values.
inductive Amid (s : Session σ) (values : List UInt64) : Prop
  | idle (hc : s.call = none) (hn : s.closed = false) (hv : values = s.pushed)
  | pushing {o : Order} {more : List UInt64} (hc : s.call = some (o, .pushing more))
      (ho : o.isFinal = false) (hn : s.closed = false) (hv : values ++ more = s.pushed ++ o.values)
  | ending {o : Order} (hc : s.call = some (o, o.call)) (ho : o.isFinal = true)
      (hn : s.closed = true) (hv : values = s.pushed)

-- What the last order of all comes to.
inductive Concluded (content : Bytes) : Order → Outcome → Prop
  | finish : Concluded content .finish (.stored content.length)
  | drop   : Concluded content .drop .dropped

inductive OnTrack (D : Discipline σ) (name : String) (c : Config) (a : σ) (s : Session σ) : Prop
  | going {values : List UInt64} {sent got : Bytes} {w : Write σ}
      (he : s.entry.encoder.Sending c values sent) (hw : s.entry.pipe.writer = true)
      (hh : s.entry.pipe.handles = 1) (hd : Supplied D name sent a s.entry w got)
      (hc : s.Amid values) (ho : s.Clear)
  | completing {content : Bytes} {o : Order} {sequel : Sequel}
      (hw : Stream.Whole c s.pushed content) (ha : ∀ v ∈ s.pushed, c.Accepts v)
      (hc : s.call = some (o, .joining sequel)) (hv : Winning o sequel) (hn : s.closed = true)
      (hd : Delivering D name content a s.entry) (ho : s.Clear)
  | done {content : Bytes} {before : List (Order × Outcome)} {o : Order} {r : Outcome}
      (hw : Stream.Whole c s.pushed content) (ha : ∀ v ∈ s.pushed, c.Accepts v)
      (hc : s.call = none) (hn : s.closed = true) (hd : s.entry.drain = .joined)
      (hk : stored? a name = some (.ok content)) (hs : s.outcomes = before ++ [(o, r)])
      (hr : Concluded content o r)

-- An encoder with a push that has failed, or is about to.
def Lost (s : Session σ) : Prop :=
  (∃ o cause, o.isFinal = false ∧ (s.call = some (o, .aborting (.fail cause)) ∨
    s.call = some (o, .joining (.fail cause)))) ∨
  ∃ o cause, o.isFinal = false ∧ (o, .failed cause) ∈ s.outcomes

theorem Supplied.step {sent got : Bytes} {w : Write σ} (h : Supplied D name sent a s.entry w got)
    (hr : D.Ready (D.due s.entry + k) a) :
    (∃ w' got', Supplied D name sent (s.drain a).1 (s.drain a).2.entry w' got') ∨
      s.entry.pipe.isClosed = true ∧ ∃ w', (s.drain a).2.entry.drain = .running w' ∧
        D.At name (.given sent) (s.drain a).1 w' := by
  rw [Discipline.due, h.drain] at hr
  rcases D.asks h.write with hq | ⟨n, hn, hq⟩
  · rw [drain_turn a h.drain hq]
    have ⟨_, _, ht⟩ := D.turn h.write hq hr
    exact .inl ⟨_, got, rfl, h.reader, h.clean, ht, h.sent⟩
  · have hx := h.clean.answering hn
    generalize hp : s.entry.pipe.answer n = x at hx
    cases hx
    case data bytes pipe hb hc hh he =>
      rw [drain_feed a h.drain hq hp]
      have ⟨_, _, ht⟩ := D.feed h.write hq (.data bytes) hr
      refine .inl ⟨_, got ++ bytes, rfl, hh.reader.trans h.reader, hc, ht, ?_⟩
      rw [h.sent, he, List.append_assoc]
    case ended hc he                 =>
      rw [drain_feed a h.drain hq hp]
      have ⟨_, _, ht⟩ := D.feed h.write hq .ended hr
      have hs : sent = got := by rw [h.sent, he, List.append_nil]
      exact .inr ⟨hc, _, rfl, hs ▸ ht⟩
    case waiting                     =>
      rw [drain_wait a h.drain hq hp]
      have hclean : s.entry.pipe.Clean := h.clean
      exact .inl ⟨w, got, h.drain, h.reader, ⟨hclean.aborted, hclean.queue⟩, h.write, h.sent⟩

theorem Delivering.step {content : Bytes} (h : Delivering D name content a s.entry)
    (hr : D.Ready (D.due s.entry + k) a) :
    Delivering D name content (s.drain a).1 (s.drain a).2.entry := by
  cases h
  case taking hs hc       =>
    rcases hs.step hr with ⟨w', got', hs'⟩ | ⟨_, w', hd, hw⟩
    · refine .taking hs' ?_
      obtain ⟨hw, hh⟩ := (s.sameOwner_drain a).hands
      rwa [Pipe.isClosed, hw, hh]
    · exact .given hd hw
  case given w hd hw      =>
    rw [Discipline.due, hd] at hr
    obtain ⟨_, _, hq, hk⟩ := D.turn hw (D.ends hw) hr
    rw [drain_turn a hd (D.ends hw)]
    exact .stored rfl hq hk
  case stored w hd hq hk  =>
    rw [drain_done a hd hq]
    exact .ended rfl hk
  case ended hd hk        =>
    rw [drain_idle a (by simp [hd])]
    exact .ended hd hk

section SameOwner

variable {values : List UInt64} {o : Order}

theorem pushed_congr (h : s'.outcomes = s.outcomes) : s'.pushed = s.pushed := by
  rw [pushed, h, pushed]

theorem Amid.congr (h : s.Amid values) (hs : SameOwner s s') : s'.Amid values := by
  have hp := pushed_congr hs.outcomes
  cases h
  case idle hc hn hv       => exact .idle (hs.call.trans hc) (hs.closed.trans hn) (hp ▸ hv)
  case pushing hc ho hn hv =>
    exact .pushing (hs.call.trans hc) ho (hs.closed.trans hn) (hp ▸ hv)
  case ending hc ho hn hv  => exact .ending (hs.call.trans hc) ho (hs.closed.trans hn) (hp ▸ hv)

theorem Lost.congr (h : s.Lost) (hc : s'.call = s.call) (ho : s'.outcomes = s.outcomes) :
    s'.Lost := by
  rw [Lost, hc, ho]
  exact h

end SameOwner

theorem OnTrack.drain (h : s.OnTrack D name c a) (hr : D.Ready (D.due s.entry + k) a) :
    (s.drain a).2.OnTrack D name c (s.drain a).1 := by
  have ho := s.sameOwner_drain a
  have hp := pushed_congr ho.outcomes
  cases h
  case going he hw hh hd hc hcl            =>
    rcases hd.step hr with ⟨w', got', hd'⟩ | ⟨hclosed, _⟩
    · exact .going (ho.encoder ▸ he) (ho.hands.left.trans hw) (ho.hands.right.trans hh) hd'
        (hc.congr ho) (hcl.congr ho)
    · simp [Pipe.isClosed, hw] at hclosed
  case completing hw ha hc hv hn hd hcl    =>
    exact .completing (hp ▸ hw) (hp ▸ ha) (ho.call.trans hc) hv (ho.closed.trans hn) (hd.step hr)
      (hcl.congr ho)
  case done hw ha hc hn hd hk hs hrep      =>
    rw [drain_idle a (by simp [hd])]
    exact .done hw ha hc hn hd hk hs hrep

section apart

variable {other : String} {sent content : Bytes}

theorem Supplied.apart {e : EntryEncoder σ} {w : Write σ} {got : Bytes}
    (h : Supplied D name sent a e w got) (ha : D.Apart other a a') (ho : D.Plain other)
    (hn : name ≠ other) : Supplied D name sent a' e w got :=
  ⟨h.drain, h.reader, h.clean, D.stays ha ho hn h.write, h.sent⟩

theorem Delivering.apart {e : EntryEncoder σ} (h : Delivering D name content a e)
    (ha : D.Apart other a a') (ho : D.Plain other) (hn : name ≠ other) :
    Delivering D name content a' e := by
  have hk := D.entry ha ho name hn
  cases h
  case taking hs hc    => exact .taking (hs.apart ha ho hn) hc
  case given hd hw     => exact .given hd (D.stays ha ho hn hw)
  case stored hd hq he => exact .stored hd hq (hk.trans he)
  case ended hd he     => exact .ended hd (hk.trans he)

theorem OnTrack.apart (h : s.OnTrack D name c a) (ha : D.Apart other a a') (ho : D.Plain other)
    (hn : name ≠ other) : s.OnTrack D name c a' := by
  cases h
  case going he hw hh hd hc hcl             =>
    exact .going he hw hh (hd.apart ha ho hn) hc hcl
  case completing hw hacc hc hv hcl hd hout =>
    exact .completing hw hacc hc hv hcl (hd.apart ha ho hn) hout
  case done hw hacc hc hcl hd hk hs hr      =>
    exact .done hw hacc hc hcl hd ((D.entry ha ho name hn).trans hk) hs hr

end apart

theorem OnTrack.order (h : s.OnTrack D name c a) (o : Order) : (s.order o).OnTrack D name c a := by
  rcases s.order_cases o with heq | ⟨hc, hn, heq⟩
  · rwa [heq]
  · rw [heq]
    cases h
    case completing hc' _ _ _ _      => rw [hc] at hc'; cases hc'
    case done hn' _ _ _ _            => rw [hn] at hn'; cases hn'
    case going he hw hh hd hamid hcl =>
      refine .going he hw hh hd ?_ hcl
      cases hamid
      case pushing hc' _ _ _ => rw [hc] at hc'; cases hc'
      case ending hn' _      => rw [hn] at hn'; cases hn'
      case idle hv           =>
        cases o
        case push   => exact .pushing rfl rfl rfl (by rw [hv]; rfl)
        case extend => exact .pushing rfl rfl rfl (by rw [hv]; rfl)
        case finish => exact .ending rfl rfl rfl hv
        case drop   => exact .ending rfl rfl rfl hv

theorem pushed_append {o : Order} {r : Outcome} (h : s'.outcomes = s.outcomes ++ [(o, r)]) :
    s'.pushed = s.pushed ++ o.values := by
  rw [pushed, h, List.flatMap_append, List.flatMap_singleton]
  rfl

theorem Supplied.takes {sent got block : Bytes} {w : Write σ} {e : EntryEncoder σ} {pipe : Pipe}
    (h : Supplied D name sent a e w got) (ht : e.pipe.Takes block pipe)
    (encoder : Stream.Encoder) :
    Supplied D name (sent ++ block) a { e with encoder, pipe } w got := by
  have ⟨hc, he, hh⟩ := h.clean.takes ht
  exact ⟨h.drain, hh.reader.trans h.reader, hc, h.write, by rw [he, h.sent, List.append_assoc]⟩

section going

variable {values : List UInt64} {sent got : Bytes} {w : Write σ} {o : Order}

theorem caller_pushing_on_track {more : List UInt64}
    (he : s.entry.encoder.Sending c values sent) (hw : s.entry.pipe.writer = true)
    (hh : s.entry.pipe.handles = 1) (hd : Supplied D name sent a s.entry w got) (ho : s.Clear)
    (hc : s.call = some (o, .pushing more)) (hf : o.isFinal = false) (hn : s.closed = false)
    (hv : values ++ more = s.pushed ++ o.values) :
    s.caller.OnTrack D name c a ∨ s.caller.Lost := by
  cases more
  case nil         =>
    rw [caller_done hc rfl]
    rw [List.append_nil] at hv
    exact .inl (.going he hw hh hd (.idle rfl hn (hv.trans (pushed_append rfl).symm))
      (ho.append hf rfl))
  case cons v more =>
    have hx := push_cases he hw v more
    have hstep : (Call.pushing (v :: more)).step s.entry = Call.push s.entry v more := rfl
    generalize hr : Call.push s.entry v more = r at hx
    rw [hr] at hstep
    cases hx
    case stored encoder pipe block _ hp hs =>
      have ⟨_, _, hhands⟩ := hd.clean.takes hp
      rw [caller_step hc hstep nofun]
      refine .inl (.going hs (hhands.writer.trans hw) (hhands.handles.trans hh) (hd.takes hp _)
        (.pushing rfl hf hn ?_) ho)
      rw [List.append_assoc]
      exact hv
    case failed cause _ _                  =>
      rw [caller_step hc hstep nofun]
      exact .inr (.inl ⟨o, cause, hf, .inl rfl⟩)
    case waiting                           =>
      rw [caller_wait hc hstep]
      exact .inl (.going he hw hh hd (.pushing hc hf hn hv) ho)

theorem caller_ending_on_track (he : s.entry.encoder.Sending c values sent)
    (hw : s.entry.pipe.writer = true) (hh : s.entry.pipe.handles = 1)
    (hd : Supplied D name sent a s.entry w got) (ho : s.Clear) (hc : s.call = some (o, o.call))
    (hf : o.isFinal = true) (hn : s.closed = true) (hv : values = s.pushed) :
    s.caller.OnTrack D name c a := by
  have hl : s.entry.isLive = true := by simp only [isLive, hd.drain]
  have hx := finish_cases he hw
  generalize hr : Call.finish s.entry = r at hx
  cases hx
  case whole encoder rest hb hrd _ hwhole _ =>
    obtain ⟨_, _, hwin, hstep⟩ := step_ending_ok hf hl hr
    rw [caller_step hc hstep (by simp)]
    obtain ⟨hclean, hcontent⟩ := hd.clean.push hb
    let pipe := (s.entry.pipe.push (.chunk rest)).close.dropHandle
    have hsupplied : Supplied D name (sent ++ rest) a { s.entry with encoder, pipe } w got := by
      refine ⟨hd.drain, hrd, ⟨hclean.aborted, hclean.queue⟩, hd.write, ?_⟩
      have hkept : pipe.content = (s.entry.pipe.push (.chunk rest)).content := rfl
      rw [hkept, hcontent, hd.sent, List.append_assoc]
    have hclosed : pipe.isClosed = true := by
      simp [pipe, Pipe.isClosed, Pipe.close, Pipe.dropHandle, Pipe.push, hh]
    exact .completing (hv ▸ hwhole) (hv ▸ he.running.accepts) rfl hwin hn
      (.taking hsupplied hclosed) ho
  case gone hrd _                           =>
    rw [hd.reader] at hrd
    cases hrd
  case waiting                              =>
    rw [caller_wait hc (step_ending_none hf hl hr)]
    exact .going he hw hh hd (.ending hc hf hn hv) ho

end going

theorem concluded_outcome {content : Bytes} {o : Order} {sequel : Sequel} (hv : Winning o sequel)
    (entry : String) :
    Concluded content o (sequel.outcome entry (.returned (.ok content.length))).value := by
  cases hv
  case finish => exact .finish
  case drop   => exact .drop

theorem caller_completing_on_track {content : Bytes} {o : Order} {sequel : Sequel}
    (hw : Stream.Whole c s.pushed content) (ha : ∀ v ∈ s.pushed, c.Accepts v)
    (hc : s.call = some (o, .joining sequel)) (hv : Winning o sequel) (hn : s.closed = true)
    (hd : Delivering D name content a s.entry) (ho : s.Clear) :
    s.caller.OnTrack D name c a := by
  have hwait {w : Write σ} (h : s.entry.drain = .running w) : s.caller.OnTrack D name c a := by
    rw [caller_wait hc (step_joining_running h sequel)]
    exact .completing hw ha hc hv hn hd ho
  cases hd
  case taking hs _    => exact hwait hs.drain
  case given h _      => exact hwait h
  case stored h _ _   => exact hwait h
  case ended hx hk    =>
    rw [caller_done hc (step_joining hx sequel)]
    have hnil := Order.values_of_isFinal hv.isFinal
    refine .done ?_ ?_ rfl hn rfl hk rfl (concluded_outcome hv _)
    · rwa [pushed_append (s := s) rfl, hnil, List.append_nil]
    · rwa [pushed_append (s := s) rfl, hnil, List.append_nil]

-- The owner stays on the way that leads to a stored entry, unless a push fails.
theorem OnTrack.caller (h : s.OnTrack D name c a) :
    s.caller.OnTrack D name c a ∨ s.caller.Lost := by
  cases h
  case going he hw hh hd hamid ho             =>
    cases hamid
    case idle hc hn hv       =>
      rw [caller_none hc]
      exact .inl (.going he hw hh hd (.idle hc hn hv) ho)
    case pushing hc hf hn hv => exact caller_pushing_on_track he hw hh hd ho hc hf hn hv
    case ending hc hf hn hv  => exact .inl (caller_ending_on_track he hw hh hd ho hc hf hn hv)
  case completing hw ha hc hv hn hd ho        =>
    exact .inl (caller_completing_on_track hw ha hc hv hn hd ho)
  case done hw ha hc hn hd hk hs hr           =>
    rw [caller_none hc]
    exact .inl (.done hw ha hc hn hd hk hs hr)

theorem outcomes_caller (s : Session σ) : s.outcomes <+: s.caller.outcomes := by
  match hc : s.call with
  | none        => exact (caller_none hc).symm ▸ List.prefix_rfl
  | some (o, c) =>
    match hs : c.step s.entry with
    | none                    => exact (caller_wait hc hs).symm ▸ List.prefix_rfl
    | some ⟨(c', e'), events⟩ =>
      by_cases hd : ∃ outcome, c' = .done outcome
      case pos =>
        obtain ⟨outcome, rfl⟩ := hd
        rw [caller_done hc hs]
        exact List.prefix_append ..
      case neg =>
        have hstep := caller_step hc hs fun outcome h => hd ⟨outcome, h⟩
        exact hstep.symm ▸ List.prefix_rfl

theorem Lost.order (h : s.Lost) (o : Order) : (s.order o).Lost := by
  rcases s.order_cases o with heq | ⟨hc, _, heq⟩
  · rwa [heq]
  · rw [heq]
    rcases h with ⟨_, _, _, h | h⟩ | h
    · rw [hc] at h
      cases h
    · rw [hc] at h
      cases h
    · exact .inr h

theorem Lost.caller (h : s.Lost) : s.caller.Lost := by
  rcases h with ⟨o, cause, hf, hc | hc⟩ | ⟨o, cause, hf, hm⟩
  · by_cases hh : s.entry.pipe.handles = 0
    case pos =>
      rw [caller_step hc (step_aborting_again hh) nofun]
      exact .inl ⟨o, cause, hf, .inr rfl⟩
    case neg =>
      match hp : s.entry.pipe.abortHandle with
      | none      =>
        rw [caller_wait hc (step_aborting_none hh hp)]
        exact .inl ⟨o, cause, hf, .inl hc⟩
      | some pipe =>
        rw [caller_step hc (step_aborting hh hp) nofun]
        exact .inl ⟨o, cause, hf, .inr rfl⟩
  · match hd : s.entry.drain with
    | .running w =>
      rw [caller_wait hc (step_joining_running hd _)]
      exact .inl ⟨o, cause, hf, .inr hc⟩
    | .ended x   =>
      rw [caller_done hc (step_joining hd _)]
      exact .inr ⟨o, cause, hf, List.mem_append_right _ (List.mem_singleton_self _)⟩
    | .joined    =>
      rw [caller_done hc (step_joining_again hd _)]
      exact .inr ⟨o, cause, hf, List.mem_append_right _ (List.mem_singleton_self _)⟩
  · exact .inr ⟨o, cause, hf, s.outcomes_caller.subset hm⟩

structure Tracked (D : Discipline σ) (name : String) (c : Config) (a : σ) (s : Session σ) :
    Prop where
  orderly : s.Orderly D name a
  track   : s.OnTrack D name c a ∨ s.Lost

theorem due_caller_le (s : Session σ) : D.due s.caller.entry ≤ D.due s.entry := by
  rcases s.caller_drain.left with hd | ⟨⟨_, hx⟩, hj⟩
  · rw [Discipline.due, Discipline.due, hd]
  · rw [Discipline.due, hj]
    exact Nat.zero_le _

theorem Orderly.caller (h : s.Orderly D name a) : s.caller.Orderly D name a := by
  intro w hw
  rcases s.caller_drain.left with hd | ⟨_, hj⟩
  · exact h w (hd ▸ hw)
  · rw [hj] at hw
    cases hw

theorem Tracked.take (h : s.Tracked D name c a) (hr : D.Ready (D.due s.entry + k) a) (t : Turn) :
    Behaves D name k a (s.take a t) ∧ (s.take a t).2.Tracked D name c (s.take a t).1 := by
  cases t
  case order o =>
    have he := (s.entry_order o).left
    have ho : (s.order o).Orderly D name a := by rw [Orderly, he]; exact h.orderly
    refine ⟨⟨.inl rfl, ?_, ho⟩, ho, h.track.imp (·.order o) (·.order o)⟩
    rw [Session.take, he]
    exact hr
  case caller  =>
    have ho := h.orderly.caller
    refine ⟨⟨.inl rfl, D.less (Nat.add_le_add_right (due_caller_le s) k) hr, ho⟩, ho, ?_⟩
    rcases h.track with ht | hl
    · exact ht.caller
    · exact .inr hl.caller
  case drain   =>
    have hb := h.orderly.drain hr
    have ho := s.sameOwner_drain a
    refine ⟨hb, hb.orderly, ?_⟩
    exact h.track.imp (·.drain hr) (·.congr ho.call ho.outcomes)

theorem Tracked.apart {other : String} (h : s.Tracked D name c a) (ha : D.Apart other a a')
    (ho : D.Plain other) (hn : name ≠ other) : s.Tracked D name c a' :=
  ⟨h.orderly.apart ha ho hn, h.track.imp_left (·.apart ha ho hn)⟩

-- An encoder that has ended without losing a push has its entry stored.
theorem Tracked.concluded (h : s.Tracked D name c a) (hc : s.call = none)
    (hn : s.closed = true)
    (hf : ∀ o cause, (o, .failed cause) ∈ s.outcomes → o.isFinal = true) :
    ∃ content before o r, Stream.Whole c s.pushed content ∧ (∀ v ∈ s.pushed, c.Accepts v) ∧
      stored? a name = some (.ok content) ∧ s.outcomes = before ++ [(o, r)] ∧
      Concluded content o r := by
  rcases h.track with ht | hl
  · cases ht
    case done content before o r hw ha _ _ _ hk hs hr =>
      exact ⟨content, before, o, r, hw, ha, hk, hs, hr⟩
    case completing hc' _ _ _ _                       => rw [hc] at hc'; cases hc'
    case going hamid _                                =>
      cases hamid
      case idle hn' _      => rw [hn] at hn'; cases hn'
      case pushing hc' _ _ _ => rw [hc] at hc'; cases hc'
      case ending hc' _ _ _  => rw [hc] at hc'; cases hc'
  · rcases hl with ⟨_, _, _, hc' | hc'⟩ | ⟨o, cause, ho, hm⟩
    · rw [hc] at hc'; cases hc'
    · rw [hc] at hc'; cases hc'
    · rw [hf o cause hm] at ho; cases ho

theorem start_tracked {maxValue : UInt64} {containsZero : Bool} {e : EntryEncoder σ}
    (h : (create name maxValue containsZero).value = .returned (.ok e)) (hp : D.Plain name)
    (a : σ) :
    ∃ c, (Config.stream maxValue containsZero).value = .ok c ∧ c.containsZero = containsZero ∧
      (start e).Tracked D name c a ∧ D.due e ≤ 1 := by
  have ⟨c, hc, hz, he, _, hd, hpipe⟩ := create_ok h
  have ⟨hbegin, hfresh⟩ := D.begin a hp
  have hsupplied : Supplied D name [] a e (begin name) [] :=
    ⟨hd, hpipe ▸ rfl, hpipe ▸ ⟨rfl, nofun⟩, hbegin, hpipe ▸ rfl⟩
  refine ⟨c, hc, hz, ⟨fun w hw => ?_, .inl ?_⟩, ?_⟩
  · cases hd.symm.trans hw
    exact D.lose hbegin
  · exact .going he (hpipe ▸ rfl) (hpipe ▸ rfl) hsupplied (.idle rfl rfl rfl) nofun
  · rwa [Discipline.due, hd]

end Session
end EntryEncoder
end BitPacking.Archive
