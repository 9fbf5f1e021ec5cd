import BitPacking.Proofs.Bits.Writer
import BitPacking.Proofs.Sink
import BitPacking.Proofs.Stream.Layout
import BitPacking.Stream.Encoder

namespace BitPacking.Stream.Encoder

variable {σ : Type} {s s' : Sink σ} {e e' : Encoder} {c : Config} {value : UInt64}
variable {values : List UInt64} {r : Except Error Unit} {cause : Error}
variable {ω : Type} [ByteSink ω]

structure Running (c : Config) (values : List UInt64) (e : Encoder) (s : Sink σ) : Prop where
  config  : e.config = c
  phase   : e.phase = .running
  accepts : ∀ v ∈ values, c.Accepts v
  digits  : Bytes.digits s.accepted ++ e.writer.digits = opening c values
  flushes : s.flushes = []

structure Aborted (c : Config) (values : List UInt64) (e : Encoder) (s : Sink σ) : Prop where
  phase      : e.phase = .aborted
  accepts    : ∀ v ∈ values, c.Accepts v
  unfinished : Unfinished c values s.accepted

-- The outcome is that of the finish by which the encoder came to lose its sink.
structure Finished (c : Config) (values : List UInt64) (r : Except Error Unit) (e : Encoder)
    (s : Sink σ) : Prop where
  phase   : e.phase = .finished
  accepts : ∀ v ∈ values, c.Accepts v
  holds   : Whole c values s.accepted ∨ Unfinished c values s.accepted
  ok_iff  : r = .ok () ↔ Whole c values s.accepted ∧ s.flushes = [.ok ()]

theorem ofConfig_running {behaviour : Sink.Behaviour σ} {state : σ} (h : ofConfig c = .ok e) :
    Running c [] e ({ behaviour, state } : Sink σ) := by
  rw [ofConfig] at h
  split at h
  case isFalse => cases h
  case isTrue  =>
    cases h
    refine ⟨rfl, rfl, by simp, ?_, rfl⟩
    rw [Bits.Writer.digits_ofBytes, Header.encode, Bytes.digits_cons, Bytes.digits_ofNat]
    simp [Sink.accepted, opening]

theorem new_ok {maxValue : UInt64} {containsZero : Bool}
    (h : (new maxValue containsZero).value = .ok e) :
    ∃ c : Config, c.containsZero = containsZero ∧ ofConfig c = .ok e := by
  simp only [new, Logged.value_bind, Logged.value_pure] at h
  match hc : (Config.stream maxValue containsZero).value with
  | .ok c    =>
    have ⟨_, _, hz⟩ := Config.batch_ok hc
    rw [hc] at h
    exact ⟨c, hz, h⟩
  | .error _ => rw [hc] at h; cases h

theorem pack_ok (h : (e.pack value).value = (.ok (), e')) :
    e.config.Accepts value ∧ e'.config = e.config ∧ e'.phase = e.phase ∧
      e'.writer.digits = e.writer.digits ++ e.config.element value := by
  simp only [pack, Logged.value_bind] at h
  split at h
  case h_1    => cases h
  case h_2 hr =>
    simp only [Logged.value_bind] at h
    split at h
    case h_1    => cases h
    case h_2 hs =>
      cases h
      have hv := Config.stored_of_remap (Config.remap_of_remapNonDelimiter hr).left
      refine ⟨Config.accepts_of_remapNonDelimiter hr hs, rfl, rfl, ?_⟩
      rw [Bits.Writer.digits_put, hv, Config.element]

theorem pack_error (h : (e.pack value).value = (.error cause, e')) : cause.IsRefusal := by
  simp only [pack, Logged.value_bind] at h
  split at h
  case h_1 hr => cases h; exact Config.remapNonDelimiter_error hr
  case h_2    =>
    simp only [Logged.value_bind] at h
    split at h
    case h_1 hs => cases h; exact Config.checkStored_error hs
    case h_2    => cases h

theorem pack_accepts (h : e.config.Accepts value) :
    ∃ e', (e.pack value).value = (.ok (), e') := by
  have ⟨s, above, hr, hs⟩ := Config.accepts_iff.1 h
  simp only [pack, Logged.value_bind, hr, hs]
  exact ⟨_, rfl⟩

theorem pack_bytesWritten (e : Encoder) (value : UInt64) :
    (e.pack value).value.2.bytesWritten = e.bytesWritten := by
  simp only [pack, Logged.value_bind]
  split
  case h_1 => rfl
  case h_2 =>
    simp only [Logged.value_bind]
    split
    case h_1 => rfl
    case h_2 => rfl

theorem handOver_ok (h : e.handOver s = (.ok (), e', s')) :
    e'.config = e.config ∧ e'.phase = e.phase ∧
      ∃ block, s.Accepts s' block ∧ Bytes.digits block ++ e'.writer.digits = e.writer.digits := by
  simp only [handOver] at h
  split at h
  case isTrue  => cases h; exact ⟨rfl, rfl, [], .refl _, rfl⟩
  case isFalse =>
    split at h
    case h_1 hw =>
      cases h
      exact ⟨rfl, rfl, _, Sink.writeAll_ok hw, e.writer.digits_takeComplete⟩
    case h_2    => cases h

theorem handOver_error (h : e.handOver s = (.error cause, e', s')) :
    cause ≠ .encoderAborted ∧ ∃ front, s.Accepts s' front ∧
      Bytes.digits front <+: e.writer.digits ∧ 8 * front.length < e.writer.digits.length := by
  simp only [handOver] at h
  split at h
  case isTrue  => cases h
  case isFalse =>
    split at h
    case h_1    => cases h
    case h_2 hw =>
      cases h
      have ⟨front, hp, hne, ha⟩ := Sink.writeAll_error hw
      have hd := e.writer.digits_takeComplete
      have hl : front.length < e.writer.takeComplete.1.length :=
        lt_of_le_of_ne hp.length_le (hne <| hp.eq_of_length ·)
      have hlw := congrArg List.length hd
      refine ⟨nofun, front, ha, ?_, ?_⟩
      · rw [← hd]
        exact (Bytes.digits_prefix hp).trans (List.prefix_append ..)
      · simp at hlw
        omega

@[simp]
theorem value_abort (e : Encoder) (s : Sink σ) :
    (e.abort s).value = ({ e with phase := .aborted, writer := .empty }, s.flush.2.release) := by
  have hf : ByteSink.flush s = (s.flush.1, s.flush.2) := rfl
  simp only [abort, hf]
  cases s.flush.1 <;> rfl

theorem push_stopped (h : e.phase ≠ .running) (s : ω) (value : UInt64) :
    (e.push s value).value = (.error .encoderAborted, e, s) := by
  have hf : e.isFinished = true := by simp [isFinished, h]
  rw [push, if_pos hf]
  rfl

theorem Running.pack (h : Running c values e s) (hp : (e.pack value).value = (.ok (), e')) :
    Running c (values ++ [value]) e' s := by
  have ⟨ha, hc, hph, hd⟩ := pack_ok hp
  rw [h.config] at ha hc hd
  refine ⟨hc, hph.trans h.phase, ?_, ?_, h.flushes⟩
  · intro v hv
    cases List.mem_append.1 hv
    case inl hv => exact h.accepts v hv
    case inr hv => exact List.mem_singleton.1 hv ▸ ha
  · rw [hd, ← List.append_assoc, h.digits, opening_append]
    simp

theorem Running.handOver_ok (h : Running c values e s)
    (hh : e.handOver s = (.ok (), e', s')) :
    Running c values e' s' ∧ s'.behaviour = s.behaviour := by
  have ⟨hc, hp, block, ha, hb⟩ := Encoder.handOver_ok hh
  refine ⟨⟨hc.trans h.config, hp.trans h.phase, h.accepts, ?_, ha.flushes.trans h.flushes⟩, ?_⟩
  case refine_2 => exact ha.behaviour
  rw [ha.accepted, Bytes.digits_append, List.append_assoc, hb, h.digits]

theorem Running.unfinished (h : Running c values e s) : Unfinished c values s.accepted := by
  have hd : Bytes.digits s.accepted <+: opening c values ++ [] := by
    rw [List.append_nil, ← h.digits]
    exact List.prefix_append ..
  have hl := hd.length_le
  have hb := c.bits_pos
  apply unfinished_of_length_lt hd
  simp at hl
  omega

theorem Running.handOver_error (h : Running c (values ++ [value]) e s)
    (hh : e.handOver s = (.error cause, e', s')) : Unfinished c values s'.accepted := by
  have ⟨_, front, ha, hp, hl⟩ := Encoder.handOver_error hh
  have hd := h.digits
  have hlw := congrArg List.length hd
  rw [opening_append] at hd
  have hp' : Bytes.digits s'.accepted <+: opening c values ++ [value].flatMap c.element := by
    rw [ha.accepted, Bytes.digits_append, ← hd]
    exact (List.prefix_append_right_inj _).2 hp
  apply unfinished_of_length_lt hp'
  rw [ha.accepted]
  simp at hlw ⊢
  omega

theorem push_running (h : Running c values e s) (hp : (e.push s value).value = (r, e', s')) :
    (r = .ok () ∧ Running c (values ++ [value]) e' s' ∧ s'.behaviour = s.behaviour) ∨
      ∃ cause, r = .error cause ∧ cause ≠ .encoderAborted ∧ Aborted c values e' s' := by
  have hf : ¬e.isFinished = true := by simp [isFinished, h.phase]
  rw [push, if_neg hf] at hp
  simp only [Logged.value_bind] at hp
  split at hp
  case h_1 cause e₁ hpk =>
    simp only [Logged.value_bind, value_abort] at hp
    cases hp
    have hc : cause ≠ .encoderAborted := by
      rintro rfl
      exact pack_error hpk
    exact .inr ⟨cause, rfl, hc, rfl, h.accepts, h.unfinished⟩
  case h_2 hpk          =>
    have h₁ := h.pack hpk
    split at hp
    case h_1 hh             =>
      cases hp
      exact .inl ⟨rfl, h₁.handOver_ok hh⟩
    case h_2 cause e₂ s₂ hh =>
      have ⟨hc, _⟩ := Encoder.handOver_error hh
      have hu := h₁.handOver_error hh
      simp only [Logged.value_bind, value_abort] at hp
      cases hp
      exact .inr ⟨cause, rfl, hc, rfl, h.accepts, hu⟩

-- What ends a stream: the end mark, and zeros up to the next byte.
theorem Running.whole (h : Running c values e s) :
    Whole c values (s.accepted ++ (e.writer.put delimiter e.config.bits).bytes) := by
  refine ⟨_, (e.writer.put delimiter e.config.bits).freeBits_lt, ?_⟩
  rw [Bytes.digits_append, Bits.Writer.digits_bytes, Bits.Writer.digits_put, ← h.digits, h.config,
    Config.endMark]
  simp only [List.append_assoc]

theorem Running.whole_of_writeAll (h : Running c values e s)
    (hw : ByteSink.writeAll s (e.writer.put delimiter e.config.bits).bytes = (.ok (), s')) :
    Whole c values s'.accepted ∧ s'.flushes = [] := by
  have ha := Sink.writeAll_ok hw
  exact ⟨ha.accepted ▸ h.whole, ha.flushes.trans h.flushes⟩

theorem Running.unfinished_of_writeAll {cause : IoError} (h : Running c values e s)
    (hw : ByteSink.writeAll s (e.writer.put delimiter e.config.bits).bytes = (.error cause, s')) :
    Unfinished c values s'.accepted := by
  have ⟨front, hp, hne, ha⟩ := Sink.writeAll_error hw
  rw [ha.accepted]
  apply h.whole.unfinished_of_prefix ((List.prefix_append_right_inj _).2 hp)
  exact fun h => hne (List.append_cancel_left h)

theorem finish_running (h : Running c values e s) (hf : e.finish s = (r, e', s')) :
    Finished c values r e' s' := by
  simp only [finish, h.phase] at hf
  split at hf
  case h_1 hw =>
    have hu := h.unfinished_of_writeAll hw
    cases hf
    exact ⟨rfl, h.accepts, .inr hu, nofun, fun h => absurd hu h.left.not_unfinished⟩
  case h_2 hw =>
    have ⟨hw, hn⟩ := h.whole_of_writeAll hw
    split at hf
    case h_1 hfl =>
      have ⟨ha, hs⟩ := Sink.flush_eq hfl
      cases hf
      refine ⟨rfl, h.accepts, .inl (ha ▸ hw), nofun, ?_⟩
      intro ⟨_, hok⟩
      rw [Sink.flushes_release, hs] at hok
      cases hok
    case h_2 hfl =>
      have ⟨ha, hs⟩ := Sink.flush_eq hfl
      cases hf
      refine ⟨rfl, h.accepts, .inl (ha ▸ hw), fun _ => ⟨ha ▸ hw, ?_⟩, fun _ => rfl⟩
      rw [Sink.flushes_release, hs, hn]

theorem finish_steady (h : Running c values e s) (hs : s.behaviour.Steady) :
    Whole c values (e.finish s).2.2.accepted := by
  have hst := Sink.writeAll_steady hs (e.writer.put delimiter e.config.bits).bytes
  simp only [finish, h.phase]
  split
  case h_1 hw => rw [hw] at hst; cases hst
  case h_2 hw =>
    have ⟨hw, _⟩ := h.whole_of_writeAll hw
    split
    case h_1 hfl => exact (Sink.flush_eq hfl).left ▸ hw
    case h_2 hfl => exact (Sink.flush_eq hfl).left ▸ hw

theorem finish_finished (h : e.phase = .finished) (s : ω) : e.finish s = (.ok (), e, s) := by
  simp only [finish, h]

theorem finish_aborted (h : e.phase = .aborted) (s : ω) :
    e.finish s = (.error .encoderAborted, e, s) := by
  simp only [finish, h]

theorem finish_stopped (h : e.phase ≠ .running) (s : Sink σ) :
    ∃ r, e.finish s = (r, e, s) := by
  match hp : e.phase with
  | .running  => exact absurd hp h
  | .finished => exact ⟨_, finish_finished hp s⟩
  | .aborted  => exact ⟨_, finish_aborted hp s⟩

theorem phase_of_finish_ok (h : e.finish s = (.ok (), e', s')) : e'.phase = .finished := by
  simp only [finish] at h
  split at h
  case h_1    => cases h
  case h_2 hp => cases h; exact hp
  case h_3    =>
    split at h
    case h_1 => cases h
    case h_2 =>
      split at h
      case h_1 => cases h
      case h_2 => cases h; rfl

-- Dropping an encoder leaves things as finishing would, and tells nobody what came of it.
@[simp]
theorem value_drop (e : Encoder) (s : Sink σ) : (e.drop s).value = (e.finish s).2 := by
  by_cases hp : e.phase = .running
  case pos =>
    have hf : ¬e.isFinished = true := by simp [isFinished, hp]
    rw [drop, if_neg hf]
    match e.finish s with
    | (.ok _, _, _)    => rfl
    | (.error _, _, _) => rfl
  case neg =>
    have hf : e.isFinished = true := by simp [isFinished, hp]
    have ⟨r, hr⟩ := finish_stopped hp s
    rw [drop, if_pos hf, hr]
    rfl

def pushed (e : Encoder) (s : Sink σ) : List UInt64 → List UInt64
  | []      => []
  | v :: vs =>
    match (e.push s v).value with
    | (.ok _, e, s) => v :: e.pushed s vs
    | (.error _, _) => []

theorem extend_running (h : Running c values e s) {more : List UInt64}
    (hx : (e.extend s more).value = (r, e', s')) :
    (r = .ok () ∧ e.pushed s more = more ∧ Running c (values ++ more) e' s' ∧
        s'.behaviour = s.behaviour) ∨
      ∃ cause, r = .error cause ∧ cause ≠ .encoderAborted ∧
        Aborted c (values ++ e.pushed s more) e' s' := by
  induction more generalizing e s values
  case nil          =>
    cases hx
    exact .inl ⟨rfl, rfl, by rwa [List.append_nil], rfl⟩
  case cons v vs hi =>
    simp only [extend, Logged.each_cons, Logged.value_bind] at hx
    split at hx
    case h_1 hp =>
      simp only [pushed, hp]
      cases push_running h hp
      case inr hr => have ⟨_, hr, _⟩ := hr; cases hr
      case inl hr =>
        have ⟨_, hr, hb⟩ := hr
        have hx' := hi hr hx
        simp only [List.append_assoc, List.singleton_append] at hx'
        cases hx'
        case inl hx' =>
          have ⟨hr', hp', hr, hb'⟩ := hx'
          exact .inl ⟨hr', congrArg _ hp', hr, hb'.trans hb⟩
        case inr hx' => exact .inr hx'
    case h_2 hp =>
      cases hx
      simp only [pushed, hp, List.append_nil]
      cases push_running h hp
      case inl hr => have ⟨hr, _⟩ := hr; cases hr
      case inr hr => exact .inr hr

theorem extend_ok (h : Running c values e s) {more : List UInt64}
    (hx : (e.extend s more).value = (.ok (), e', s')) :
    Running c (values ++ more) e' s' ∧ s'.behaviour = s.behaviour := by
  cases extend_running h hx
  case inl hx => exact hx.right.right
  case inr hx => have ⟨_, hr, _⟩ := hx; cases hr

theorem extend_stopped (h : e.phase ≠ .running) (s : Sink σ) (values : List UInt64) :
    ∃ r, (e.extend s values).value = (r, e, s) ∧ (r = .ok () ∨ r = .error .encoderAborted) := by
  cases values
  case nil       => exact ⟨_, rfl, .inl rfl⟩
  case cons v vs =>
    have hp := push_stopped h s v
    refine ⟨_, ?_, .inr rfl⟩
    simp only [extend, Logged.each_cons, Logged.value_bind, hp]
    rfl

theorem pushed_stopped (h : e.phase ≠ .running) (s : Sink σ) (values : List UInt64) :
    e.pushed s values = [] := by
  cases values
  case nil       => rfl
  case cons v vs => simp only [pushed, push_stopped h s v]

theorem value_push (e : Encoder) (s : Sink σ) (value : UInt64) :
    (e.push s value).value = (e.extend s [value]).value := by
  simp only [extend, Logged.each_cons, Logged.each_nil, Logged.value_bind]
  split
  case h_1 hp => exact hp
  case h_2 hp => exact hp

end BitPacking.Stream.Encoder
