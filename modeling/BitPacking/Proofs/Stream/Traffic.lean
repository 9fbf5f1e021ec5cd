import BitPacking.Proofs.Acceptance
import BitPacking.Proofs.Batch.Layout
import BitPacking.Proofs.Stream.RoundTrip
import BitPacking.Proofs.Stream.Session

namespace BitPacking

-- A sink that was offered blocks one after the other, each up to its end or to a failure.
def Sink.offer {σ : Type} (s : Sink σ) (blocks : List Bytes) : Sink σ :=
  blocks.foldl (fun s block => (ByteSink.writeAll s block).2) s

theorem Sink.behaviour_offer {σ : Type} (s : Sink σ) (blocks : List Bytes) :
    (s.offer blocks).behaviour = s.behaviour := by
  induction blocks generalizing s
  case nil          => rfl
  case cons b bs hi =>
    have hw : ByteSink.writeAll s b = (_, (ByteSink.writeAll s b).2) := rfl
    have ⟨_, _, ha, _⟩ := Sink.writeAll_accepts hw
    exact (hi _).trans ha.behaviour

theorem Sink.offer_append {σ : Type} (s : Sink σ) (blocks : List Bytes) (block : Bytes) :
    s.offer (blocks ++ [block]) = (ByteSink.writeAll (s.offer blocks) block).2 := by
  rw [offer, List.foldl_append]
  rfl

namespace Stream

def layout (c : Config) (ds : List Bool) : Bytes :=
  .ofNat c.bits :: Bytes.ofDigits ds

-- A block is handed over as soon as there is one, so it has only the bytes of one element to spare.
def IsBlock (bytes : Bytes) : Prop :=
  Bytes.blockSize ≤ bytes.length ∧ bytes.length ≤ Bytes.blockSize + 7

variable {c : Config} {values : List UInt64} {bytes : Bytes} {ds : List Bool}

theorem eq_layout {k : Nat} (hk : k < 8)
    (h : Bytes.digits bytes = Bits.digits 8 c.bits ++ ds ++ List.replicate k false) :
    bytes = layout c ds := by
  have hh : Bytes.digits [UInt8.ofNat c.bits] = Bits.digits 8 c.bits := by
    rw [Bytes.digits_cons, Bytes.digits_ofNat, Bytes.digits_nil, List.append_nil]
  rw [List.append_assoc, ← hh] at h
  have ⟨body, hb, hd⟩ := Bytes.exists_append_of_digits_eq h
  rw [hb, Bytes.eq_ofDigits hd hk]
  rfl

namespace Encoder

variable {σ : Type} {s₀ s s' : Sink σ} {e e' : Encoder} {value : UInt64} {more : List UInt64}
variable {blocks : List Bytes} {r : Except Error Unit} {cause : Error}

def tail (e : Encoder) : Bytes :=
  Bytes.ofDigits (e.writer.digits ++ e.config.endMark)

-- A sink that was called to hand over blocks and for nothing else, and has accepted all of them.
structure Handed (s₀ : Sink σ) (blocks : List Bytes) (e : Encoder) (s : Sink σ) : Prop where
  sink         : s = s₀.offer blocks
  isBlock      : ∀ b ∈ blocks, IsBlock b
  accepted     : s.accepted = blocks.flatten
  bytesWritten : e.bytesWritten = s.accepted.length

-- An encoder between two pushes, none of which has failed.
structure Buffering (c : Config) (s₀ : Sink σ) (values : List UInt64) (blocks : List Bytes)
    (e : Encoder) (s : Sink σ) : Prop extends Handed s₀ blocks e s where
  running           : e.Running c values s
  valuesWritten     : e.valuesWritten = values.length
  completeLength_lt : e.writer.completeLength < Bytes.blockSize

-- An encoder whose sink failed in the middle of a block. The value that made the block complete is
-- counted, although its push failed, and the bytes of the block are not.
structure Torn (s₀ : Sink σ) (values : List UInt64) (blocks : List Bytes) (block front : Bytes)
    (e : Encoder) (s : Sink σ) : Prop where
  sink          : s = (s₀.offer (blocks ++ [block])).flush.2.release
  isBlock       : ∀ b ∈ blocks ++ [block], IsBlock b
  front_prefix  : front <+: block
  front_ne      : front ≠ block
  accepted      : s.accepted = blocks.flatten ++ front
  bytesWritten  : e.bytesWritten = blocks.flatten.length
  valuesWritten : e.valuesWritten = values.length + 1

-- An encoder that a push gave up, which fails with a failure of the sink only within a block.
structure GivenUp (s₀ : Sink σ) (values : List UInt64) (cause : Error) (e : Encoder)
    (s : Sink σ) : Prop where
  phase : e.phase = .aborted
  torn  : ∀ io, cause = .io io → ∃ blocks block front, Torn s₀ values blocks block front e s

theorem ofConfig_buffering {behaviour : Sink.Behaviour σ} {state : σ} (h : ofConfig c = .ok e) :
    Buffering c { behaviour, state } [] [] e { behaviour, state } := by
  have hr : Running c [] e ({ behaviour, state } : Sink σ) := ofConfig_running h
  rw [ofConfig] at h
  split at h
  case isFalse => cases h
  case isTrue  =>
    cases h
    exact ⟨⟨rfl, List.forall_mem_nil _, rfl, rfl⟩, hr, rfl, show 1 < Bytes.blockSize by decide⟩

theorem Running.layout_eq (h : Running c values e s) :
    s.accepted ++ e.writer.bytes = layout c (values.flatMap c.element) := by
  apply eq_layout e.writer.freeBits_lt
  rw [Bytes.digits_append, Bits.Writer.digits_bytes, ← List.append_assoc, h.digits, opening]

theorem tail_eq (e : Encoder) : (e.writer.put delimiter e.config.bits).bytes = e.tail := by
  have hd := (e.writer.put delimiter e.config.bits).digits_bytes
  rw [Bits.Writer.digits_put] at hd
  exact Bytes.eq_ofDigits hd (Bits.Writer.freeBits_lt _)

theorem Running.layout_tail (h : Running c values e s) :
    s.accepted ++ e.tail = layout c (values.flatMap c.element ++ c.endMark) := by
  have ⟨k, hk, hd⟩ := h.whole
  rw [← tail_eq]
  apply eq_layout hk
  rw [hd, opening, List.append_assoc (Bits.digits 8 c.bits)]

theorem length_tail (e : Encoder) :
    e.tail.length = (8 * e.writer.completeLength + e.writer.used + e.config.bits + 7) / 8 := by
  rw [tail, Bytes.ofDigits, Bytes.length_bigEndian, List.length_append, Bits.Writer.length_digits,
    Config.length_endMark]

theorem tail_ne_nil (e : Encoder) : e.tail ≠ [] := by
  have hb := e.config.bits_pos
  have hl := e.length_tail
  apply List.ne_nil_of_length_pos
  omega

theorem Buffering.length_tail_le (h : Buffering c s₀ values blocks e s) :
    e.tail.length ≤ Bytes.blockSize + 8 := by
  have hc := h.completeLength_lt
  have hu := e.writer.used_lt
  have hb := e.config.isValidWidth_bits.right
  rw [length_tail]
  simp only [maxWidth] at hb
  omega

theorem pack_written (h : (e.pack value).value = (.ok (), e')) :
    e'.valuesWritten = e.valuesWritten + 1 ∧ e'.bytesWritten = e.bytesWritten ∧
      e'.writer.completeLength ≤ e.writer.completeLength + 8 := by
  simp only [pack, Logged.value_bind] at h
  split at h
  case h_1 => cases h
  case h_2 stored _ =>
    simp only [Logged.value_bind] at h
    split at h
    case h_1 => cases h
    case h_2 =>
      cases h
      have hl := e.writer.put_length stored e.config.bits
      have hu := e.writer.used_lt
      have hb := e.config.isValidWidth_bits.right
      refine ⟨rfl, rfl, ?_⟩
      simp only [Bits.Writer.completeLength, maxWidth] at hb ⊢
      omega

-- A block that goes to the sink is part of what the encoder asked of it, accepted whole or not.
theorem Handed.handOver (h : Handed s₀ blocks e s)
    (hl : e.writer.completeLength ≤ Bytes.blockSize + 7) (hh : e.handOver s = (r, e', s')) :
    e'.valuesWritten = e.valuesWritten ∧
      ((r = .ok () ∧ e'.writer.completeLength < Bytes.blockSize ∧
          ∃ blocks', Handed s₀ blocks' e' s') ∨
        ∃ io block front, r = .error (.io io) ∧ s' = s₀.offer (blocks ++ [block]) ∧
          IsBlock block ∧ front <+: block ∧ front ≠ block ∧ s'.accepted = blocks.flatten ++ front ∧
          e'.bytesWritten = blocks.flatten.length) := by
  simp only [Encoder.handOver] at hh
  split at hh
  case isTrue hlt  =>
    cases hh
    exact ⟨rfl, .inl ⟨rfl, hlt, blocks, h⟩⟩
  case isFalse hlt =>
    have hlen : e.writer.takeComplete.1.length = e.writer.completeLength := by
      simp [Bits.Writer.takeComplete, Bits.Writer.completeLength]
    -- At most one element was added since the last block.
    have hb : IsBlock e.writer.takeComplete.1 := ⟨hlen ▸ not_lt.1 hlt, hlen ▸ hl⟩
    have hw : (ByteSink.writeAll s e.writer.takeComplete.1).2 =
        s₀.offer (blocks ++ [e.writer.takeComplete.1]) := by
      rw [Sink.offer_append, ← h.sink]
    have hn := h.bytesWritten
    have hbs : ∀ b ∈ blocks ++ [e.writer.takeComplete.1], IsBlock b :=
      List.forall_mem_append.2 ⟨h.isBlock, List.forall_mem_singleton.2 hb⟩
    rw [h.accepted] at hn
    split at hh
    case h_1 hx =>
      cases hh
      have ha := (Sink.writeAll_ok hx).accepted
      rw [hx] at hw
      refine ⟨rfl, .inl ⟨rfl, show 0 < Bytes.blockSize by decide, _, hw, hbs, ?_, ?_⟩⟩
      · rw [ha, h.accepted, List.flatten_append, List.flatten_singleton]
      · rw [ha, List.length_append, ← h.bytesWritten]
    case h_2 hx =>
      cases hh
      obtain ⟨front, hp, hne, ha⟩ := Sink.writeAll_error hx
      rw [hx] at hw
      refine ⟨rfl, .inr ⟨_, _, front, rfl, hw, hb, hp, hne, ?_, hn⟩⟩
      rw [ha.accepted, h.accepted]

theorem Buffering.push (h : Buffering c s₀ values blocks e s)
    (hp : (e.push s value).value = (r, e', s')) :
    (r = .ok () ∧ ∃ blocks', Buffering c s₀ (values ++ [value]) blocks' e' s') ∨
      ∃ cause, r = .error cause ∧ GivenUp s₀ values cause e' s' := by
  have hrun := push_running h.running hp
  have hf : ¬e.isFinished = true := by simp [isFinished, h.running.phase]
  rw [Encoder.push, if_neg hf] at hp
  simp only [Logged.value_bind] at hp
  split at hp
  -- A value that is refused never fails on the sink.
  case h_1 hpk    =>
    simp only [Logged.value_bind, value_abort] at hp
    cases hp
    refine .inr ⟨_, rfl, rfl, ?_⟩
    rintro io rfl
    exact absurd (pack_error hpk) id
  case h_2 e₁ hpk =>
    obtain ⟨hv, hn, hl⟩ := pack_written hpk
    have h₁ : Handed s₀ blocks e₁ s :=
      ⟨h.sink, h.isBlock, h.accepted, hn.trans h.bytesWritten⟩
    have hl₁ : e₁.writer.completeLength ≤ Bytes.blockSize + 7 := by
      have := h.completeLength_lt
      omega
    split at hp
    case h_1 e₂ s₂ hh       =>
      cases hp
      obtain ⟨hv₂, ⟨-, hlt, blocks', hb⟩ | ⟨_, _, _, hr, -⟩⟩ := h₁.handOver hl₁ hh
      case inr => cases hr
      case inl =>
        obtain ⟨-, hr, -⟩ | ⟨_, hr, -⟩ := hrun
        case inr => cases hr
        case inl =>
          refine .inl ⟨rfl, blocks', hb, hr, ?_, hlt⟩
          rw [hv₂, hv, h.valuesWritten, List.length_append, List.length_singleton]
    case h_2 cause e₂ s₂ hh =>
      simp only [Logged.value_bind, value_abort] at hp
      cases hp
      obtain ⟨hv₂, ⟨hr, -⟩ | ⟨io, block, front, hr, hs, hb, hfp, hne, ha, hw⟩⟩ :=
        h₁.handOver hl₁ hh
      case inl => cases hr
      -- The value was counted before its block was handed over.
      case inr =>
        refine .inr ⟨_, rfl, rfl, fun _ _ => ⟨blocks, block, front, ?_⟩⟩
        refine ⟨congrArg (·.flush.2.release) hs, ?_, hfp, hne, ha, hw, ?_⟩
        · exact List.forall_mem_append.2 ⟨h.isBlock, List.forall_mem_singleton.2 hb⟩
        · exact hv₂.trans (hv.trans (congrArg (· + 1) h.valuesWritten))

theorem Buffering.extend (h : Buffering c s₀ values blocks e s)
    (hx : (e.extend s more).value = (r, e', s')) :
    (r = .ok () ∧ ∃ blocks', Buffering c s₀ (values ++ more) blocks' e' s') ∨
      ∃ cause, r = .error cause ∧ GivenUp s₀ (values ++ e.pushed s more) cause e' s' := by
  induction more generalizing e s values blocks
  case nil          =>
    cases hx
    exact .inl ⟨rfl, blocks, by rwa [List.append_nil]⟩
  case cons v vs hi =>
    simp only [Encoder.extend, Logged.each_cons, Logged.value_bind] at hx
    split at hx
    case h_1 hp =>
      obtain ⟨-, blocks₁, h₁⟩ | ⟨_, hr, -⟩ := h.push hp
      case inr => cases hr
      case inl =>
        have hx' := hi h₁ hx
        simp only [List.append_assoc, List.singleton_append] at hx'
        simpa only [pushed, hp] using hx'
    case h_2 hp =>
      cases hx
      simp only [pushed, hp, List.append_nil]
      obtain ⟨hr, -⟩ | hg := h.push hp
      case inl => cases hr
      case inr => exact .inr hg

theorem Buffering.finish (h : Buffering c s₀ values blocks e s) (hs : s.behaviour.Steady) :
    (e.finish s).2.2 = (s₀.offer (blocks ++ [e.tail])).flush.2.release ∧
      (e.finish s).2.2.accepted = layout c (values.flatMap c.element ++ c.endMark) := by
  have hw : ByteSink.writeAll s e.tail = (.ok (), s₀.offer (blocks ++ [e.tail])) := by
    rw [Sink.offer_append, ← h.sink]
    exact Prod.ext (Sink.writeAll_steady hs e.tail) rfl
  have hf : (e.finish s).2.2 = (s₀.offer (blocks ++ [e.tail])).flush.2.release := by
    have hfl : ByteSink.flush (s₀.offer (blocks ++ [e.tail])) =
        (s₀.offer (blocks ++ [e.tail])).flush := rfl
    simp only [Encoder.finish, h.running.phase, tail_eq, hw, hfl]
    split
    case h_1 hx => rw [hx]; rfl
    case h_2 hx => rw [hx]; rfl
  refine ⟨hf, ?_⟩
  rw [hf, ← h.running.layout_tail]
  exact (Sink.writeAll_ok hw).accepted

end Encoder

namespace Session

variable {σ : Type} {s₀ : Sink σ} {e : Encoder} {s : Session σ} {blocks : List Bytes}

-- So far, all calls have pushed values, and every push has succeeded.
def Unbroken (s : Session σ) : Prop :=
  ∀ o ∈ s.outcomes, o.1 ≠ .finish ∧ o.2 = .ok ()

-- What a session has come to, as far as its sink is concerned: all pushes were stored, or the sink
-- is gone. If it was the sink that made a push fail, it did so within a block.
inductive Traffic (c : Config) (s₀ : Sink σ) (s : Session σ) : Prop
  | buffering (blocks : List Bytes)
      (h : s.encoder.Buffering c s₀ s.stored blocks s.sink) (ho : s.Unbroken)
  | stopped (hp : s.encoder.phase ≠ .running) (ho : ¬s.Unbroken)
      (ht : ∀ call io, call ≠ .finish → (call, .error (.io io)) ∈ s.outcomes →
        ∃ blocks block front, s.encoder.Torn s₀ s.stored blocks block front s.sink)

theorem start_traffic {behaviour : Sink.Behaviour σ} {state : σ} (h : Encoder.ofConfig c = .ok e) :
    Traffic c { behaviour, state } (start e behaviour state) :=
  .buffering [] (Encoder.ofConfig_buffering h) (List.forall_mem_nil _)

theorem Traffic.finish (h : s.encoder.Buffering c s₀ s.stored blocks s.sink) (ho : s.Unbroken) :
    Traffic c s₀ (s.step .finish) := by
  match hf : s.encoder.finish s.sink with
  | (r, e', sink) =>
    rw [step_finish hf]
    have hp : e'.phase = .finished := (Encoder.finish_running h.running hf).phase
    refine .stopped (by simp [hp]) (fun h => (h (.finish, r) (by simp)).1 rfl) ?_
    intro call io hc hm
    cases List.mem_append.1 hm
    case inl hm => cases (ho _ hm).2
    case inr hm => cases List.mem_singleton.1 hm; exact absurd rfl hc

theorem Traffic.extend {call : Call} (hc : call ≠ .finish)
    (h : s.encoder.Buffering c s₀ s.stored blocks s.sink) (ho : s.Unbroken) :
    Traffic c s₀ (s.step call) := by
  match hx : (s.encoder.extend s.sink call.values).value with
  | (r, e', sink) =>
    rw [step_extend hc hx]
    obtain ⟨hr, blocks', hb⟩ | ⟨cause, hr, hg⟩ := h.extend hx
    case inl =>
      obtain ⟨-, hp, -⟩ | ⟨_, hr', -⟩ := Encoder.extend_running h.running hx
      case inr => rw [hr] at hr'; cases hr'
      case inl =>
        refine .buffering blocks' (hp.symm ▸ hb) (List.forall_mem_append.2 ⟨ho, ?_⟩)
        exact List.forall_mem_singleton.2 ⟨hc, hr⟩
    case inr =>
      have ho' : (Except.error cause : Except Error Unit) ≠ .ok () := nofun
      refine .stopped (by simp [hg.phase]) (fun h => ho' (hr ▸ (h (call, r) (by simp)).2)) ?_
      intro call' io hc' hm
      cases List.mem_append.1 hm
      case inl hm => cases (ho _ hm).2
      case inr hm =>
        have ho := (Prod.mk.inj (List.mem_singleton.1 hm)).2.trans hr
        exact hg.torn io (Except.error.inj ho).symm

theorem Traffic.step (h : Traffic c s₀ s) (call : Call) : Traffic c s₀ (s.step call) := by
  cases h
  case buffering blocks h ho =>
    by_cases hc : call = .finish
    case pos => exact hc ▸ Traffic.finish h ho
    case neg => exact Traffic.extend hc h ho
  case stopped hp ho ht      =>
    have ⟨r, hs, _, hr⟩ := step_stopped hp call
    rw [hs]
    refine .stopped hp (fun h => ho fun o hm => h o (List.mem_append_left _ hm)) ?_
    intro call' io hc hm
    cases List.mem_append.1 hm
    case inl hm => exact ht call' io hc hm
    case inr hm =>
      cases List.mem_singleton.1 hm
      cases hr hc
      case inl hr => cases hr
      case inr hr => cases hr

theorem Traffic.run (h : Traffic c s₀ s) (calls : List Call) : Traffic c s₀ (s.run calls) := by
  induction calls generalizing s
  case nil             => exact h
  case cons call cs hi => exact hi (h.step call)

theorem sink_run (h : s.encoder.phase ≠ .running) (calls : List Call) :
    (s.run calls).encoder = s.encoder ∧ (s.run calls).sink = s.sink := by
  induction calls generalizing s
  case nil             => exact ⟨rfl, rfl⟩
  case cons call cs hi =>
    have ⟨_, hs, _⟩ := step_stopped h call
    rw [run, List.foldl_cons, ← run, hs]
    exact hi h

theorem sink_drop (h : s.encoder.phase ≠ .running) : s.drop.sink = s.sink := by
  have ⟨_, hf⟩ := Encoder.finish_stopped h s.sink
  simp only [drop, Encoder.value_drop, hf]

theorem run_of_accepts {calls : List Call} (h : s.encoder.Running c s.stored s.sink)
    (hb : s.sink.behaviour.Steady)
    (hc : ∀ call ∈ calls, call ≠ .finish ∧ ∀ v ∈ call.values, c.Accepts v) :
    (s.run calls).outcomes = s.outcomes ++ calls.map (·, .ok ()) ∧
      (s.run calls).stored = s.stored ++ calls.flatMap Call.values := by
  induction calls generalizing s
  case nil             => simp [run]
  case cons call cs hi =>
    obtain ⟨⟨hne, ha⟩, hcs⟩ := List.forall_mem_cons.1 hc
    obtain ⟨e', s', hx, -⟩ := Encoder.extend_of_accepts h hb ha
    have hx := congrArg Logged.value hx
    obtain ⟨-, hp, hr, hb'⟩ | ⟨_, hr, -⟩ := Encoder.extend_running h hx
    case inr => cases hr
    case inl =>
      have hs := step_extend hne hx
      rw [hp] at hs
      have ⟨ho, hst⟩ := hi (s := s.step call) (by rwa [hs]) (by rw [hs]; exact hb' ▸ hb) hcs
      rw [run, List.foldl_cons, ← run, ho, hst, hs, List.map_cons, List.flatMap_cons]
      simp only [List.append_assoc, List.singleton_append, and_self]

-- For any sink and any calls: what the sink has and what is buffered after them, what finishing
-- adds, that nothing follows the end, and where a sink that fails leaves the counts.
theorem traffic_of_run (he : Encoder.ofConfig c = .ok e) (behaviour : Sink.Behaviour σ) (state : σ)
    (calls : List Call) :
    let s₀ : Sink σ := { behaviour, state }
    let s := (start e behaviour state).run calls
    (behaviour.Steady → (∀ call ∈ calls, call ≠ .finish ∧ ∀ v ∈ call.values, c.Accepts v) →
      s.outcomes = calls.map (·, .ok ()) ∧ s.stored = calls.flatMap Call.values) ∧
    (s.Unbroken → ∃ blocks,
      s.encoder.Buffering c s₀ s.stored blocks s.sink ∧
      s.sink.accepted ++ s.encoder.writer.bytes = layout c (s.stored.flatMap c.element) ∧
      s.encoder.tail ≠ [] ∧ s.encoder.tail.length ≤ Bytes.blockSize + 8 ∧
      (behaviour.Steady →
        (s.step .finish).sink = (s₀.offer (blocks ++ [s.encoder.tail])).flush.2.release ∧
        (s.step .finish).sink.accepted = layout c (s.stored.flatMap c.element ++ c.endMark))) ∧
    (¬s.Unbroken → ∀ more, (s.run more).sink = s.sink ∧ (s.run more).drop.sink = s.sink) ∧
    ∀ call io, call ≠ .finish → (call, .error (.io io)) ∈ s.outcomes →
      ∃ blocks block front, s.encoder.Torn s₀ s.stored blocks block front s.sink := by
  intro s₀ s
  have hr : (start e behaviour state).encoder.Running c [] s₀ := Encoder.ofConfig_running he
  have ht : Traffic c s₀ s := (start_traffic he).run calls
  refine ⟨fun hs hc => run_of_accepts hr hs hc, fun ho => ?_, ?_, ?_⟩
  case refine_1 =>
    cases ht
    case stopped hn _         => exact absurd ho hn
    case buffering blocks h _ =>
      refine ⟨blocks, h, h.running.layout_eq, s.encoder.tail_ne_nil, h.length_tail_le, fun hs => ?_⟩
      have hb : s.sink.behaviour.Steady := by rwa [h.sink, Sink.behaviour_offer]
      rw [step_finish (Prod.ext rfl rfl)]
      exact h.finish hb
  case refine_2 =>
    intro hn more
    cases ht
    case buffering _ _ ho => exact absurd ho hn
    case stopped hp _ _   =>
      have ⟨he, hs⟩ := sink_run hp more
      exact ⟨hs, (sink_drop (he ▸ hp)).trans hs⟩
  case refine_3 =>
    cases ht
    case stopped ht     => exact ht
    case buffering _ ho =>
      intro call io _ hm
      cases (ho _ hm).2

-- 601 elements of eight bytes, more than a block, for a sink that takes a byte at a time.
theorem traffic_of_run_reluctant :
    let c : Config := ⟨18446744073709551614, 0, true, by decide⟩
    let calls : List Call := [.extend (List.replicate 600 7), .push 0]
    ∃ e, Encoder.ofConfig c = .ok e ∧ reluctant.Steady ∧
      (∀ call ∈ calls, call ≠ .finish ∧ ∀ v ∈ call.values, c.Accepts v) ∧
      let s₀ : Sink Nat := { behaviour := reluctant, state := 0 }
      let s := (start e reluctant 0).run calls
      s.Unbroken ∧ s.stored = List.replicate 600 7 ++ [0] ∧
      ∃ blocks, blocks ≠ [] ∧ s.encoder.Buffering c s₀ s.stored blocks s.sink ∧
        (s.step .finish).sink = (s₀.offer (blocks ++ [s.encoder.tail])).flush.2.release ∧
        (s.step .finish).sink.accepted = layout c (s.stored.flatMap c.element ++ c.endMark) := by
  intro c calls
  let e : Encoder := { config := c, writer := .ofBytes [64] }
  have he : Encoder.ofConfig c = .ok e := by decide +kernel
  have h7 : c.Accepts 7 := Config.accepts_iff.2 ⟨8, false, by rfl, by rfl⟩
  have h0 : c.Accepts 0 := Config.accepts_iff.2 ⟨1, false, by rfl, by rfl⟩
  have hc : ∀ call ∈ calls, call ≠ .finish ∧ ∀ v ∈ call.values, c.Accepts v := by
    refine List.forall_mem_cons.2 ⟨⟨nofun, fun v hv => ?_⟩, List.forall_mem_singleton.2 ⟨nofun, ?_⟩⟩
    · exact List.eq_of_mem_replicate hv ▸ h7
    · exact List.forall_mem_singleton.2 h0
  have ⟨ha, hb, _, _⟩ := traffic_of_run he reluctant 0 calls
  have ⟨ho, hst⟩ := ha reluctant_steady hc
  have hu : ((start e reluctant 0).run calls).Unbroken := by
    rw [Unbroken, ho]
    exact List.forall_mem_map.2 fun call hm => ⟨(hc call hm).1, rfl⟩
  have ⟨blocks, hbuf, hl, _, _, hf⟩ := hb hu
  refine ⟨e, he, reluctant_steady, hc, hu, hst, blocks, ?_, hbuf, hf reluctant_steady⟩
  -- The elements are more bits than stay in the buffer.
  rintro rfl
  have hlt := hbuf.completeLength_lt
  have hu := ((start e reluctant 0).run calls).encoder.writer.used_lt
  have hn : ((start e reluctant 0).run calls).stored.length = 601 := by
    have hst : ((start e reluctant 0).run calls).stored = List.replicate 600 7 ++ [0] := hst
    rw [hst, List.length_append, List.length_replicate, List.length_singleton]
  have hlen := congrArg List.length hbuf.running.digits
  rw [length_opening, hn, hbuf.accepted, List.length_append, Bits.Writer.length_digits,
    show c.bits = 64 by decide +kernel] at hlen
  simp only [List.flatten_nil, Bytes.digits_nil, List.length_nil, Bytes.blockSize] at hlen hlt
  omega

end Session
end Stream
end BitPacking
