import BitPacking.Proofs.Pipe.Reading
import BitPacking.Proofs.Stream.Encoder

namespace BitPacking.Stream.Encoder

variable {c : Config} {values : List UInt64} {value : UInt64} {sent : Bytes} {e : Encoder}
variable {p : Pipe}

-- A sink that holds some bytes, in place of a pipe that they were sent through.
def holding (bytes : Bytes) : Sink Unit where
  behaviour := { write := fun _ _ => ((0, .ok 0), ()), flush := fun _ => (.ok (), ()) }
  state     := ()
  writes    := [bytes]

@[simp]
theorem accepted_holding (bytes : Bytes) : (holding bytes).accepted = bytes := by
  simp [holding, Sink.accepted]

structure Sending (c : Config) (values : List UInt64) (sent : Bytes) (e : Encoder) : Prop where
  running : e.Running c values (holding sent)
  written : e.bytesWritten = sent.length

theorem ofConfig_sending (h : ofConfig c = .ok e) : Sending c [] [] e := by
  have hr : e.Running c [] { behaviour := (holding []).behaviour, state := () } :=
    ofConfig_running h
  refine ⟨⟨hr.config, hr.phase, hr.accepts, ?_, rfl⟩, ?_⟩
  · rw [accepted_holding]
    exact hr.digits
  · rw [ofConfig] at h
    split at h
    case isTrue  => cases h; rfl
    case isFalse => cases h

inductive Pushed (c : Config) (values : List UInt64) (sent : Bytes) (p : Pipe) (value : UInt64) :
    Except Error Unit × Encoder × Pipe → Prop
  | stored {e : Encoder} {p' : Pipe} {block : Bytes} (ha : c.Accepts value)
      (hp : p.Takes block p') (h : Sending c (values ++ [value]) (sent ++ block) e) :
      Pushed c values sent p value (.ok (), e, p')
  | refused {e : Encoder} {cause : Error} (ha : ¬c.Accepts value) (hc : cause.IsRefusal)
      (he : e.phase = .aborted) (hw : e.bytesWritten = sent.length) :
      Pushed c values sent p value (.error cause, e, p.close)
  | waiting {e : Encoder} {p' : Pipe} (ha : c.Accepts value) (hr : p.reader = true)
      (hh : p.hasRoom = false) :
      Pushed c values sent p value (.error (.io .wouldBlock), e, p')
  | gone {e : Encoder} (ha : c.Accepts value) (hr : p.reader = false) (he : e.phase = .aborted)
      (hw : e.bytesWritten = sent.length) :
      Pushed c values sent p value (.error (.io .pipeReaderGone), e, p.close)

inductive Closed (c : Config) (values : List UInt64) (sent : Bytes) (p : Pipe) :
    Except Error Unit × Encoder × Pipe → Prop
  | whole {e : Encoder} {rest : Bytes} (hb : rest ≠ []) (hr : p.reader = true)
      (hh : p.hasRoom = true) (hw : Whole c values (sent ++ rest)) (he : e.phase = .finished)
      (hn : e.bytesWritten = (sent ++ rest).length) :
      Closed c values sent p (.ok (), e, (p.push (.chunk rest)).close)
  | waiting {e : Encoder} {p' : Pipe} (hr : p.reader = true) (hh : p.hasRoom = false) :
      Closed c values sent p (.error (.io .wouldBlock), e, p')
  | gone {e : Encoder} (hr : p.reader = false) (he : e.phase = .finished) :
      Closed c values sent p (.error (.io .pipeReaderGone), e, p.close)

theorem abort_pipe (e : Encoder) (p : Pipe) :
    (e.abort p).value = ({ e with phase := .aborted, writer := .empty }, p.close) :=
  rfl

theorem Sending.pack {e' : Encoder} (h : Sending c values sent e)
    (hp : (e.pack value).value = (.ok (), e')) : Sending c (values ++ [value]) sent e' := by
  refine ⟨h.running.pack hp, ?_⟩
  have hb := e.pack_bytesWritten value
  rw [hp] at hb
  exact hb.trans h.written

-- Handing complete bytes over to a pipe, which does not touch what they are part of.
theorem Sending.handOver (h : Sending c values sent e) (hw : p.writer = true) :
    (∃ block e' p', e.handOver p = (.ok (), e', p') ∧ p.Takes block p' ∧
        Sending c values (sent ++ block) e') ∨
      (∃ e' p', e.handOver p = (.error (.io .wouldBlock), e', p') ∧ p.reader = true ∧
        p.hasRoom = false) ∨
      ∃ e', e.handOver p = (.error (.io .pipeReaderGone), e', p) ∧ p.reader = false ∧
        e'.bytesWritten = sent.length := by
  rw [Encoder.handOver]
  split
  case isTrue     => exact .inl ⟨[], e, p, rfl, .nothing, by rwa [List.append_nil]⟩
  case isFalse hl =>
    have hb : e.writer.takeComplete.1 ≠ [] := by
      intro hn
      have := congrArg List.length hn
      simp [Bits.Writer.takeComplete, Bits.Writer.completeLength, Bytes.blockSize] at this hl
      simp [this] at hl
    rcases Pipe.writeAll_cases hw hb with ⟨hr, hx⟩ | ⟨hr, hh, hx⟩ | ⟨hr, hh, hx⟩
    · simp only [hx]
      exact .inr (.inr ⟨_, rfl, hr, h.written⟩)
    · simp only [hx]
      refine .inl ⟨_, _, _, rfl, .chunk hb hr hh, ?_, ?_⟩
      · refine ⟨h.running.config, h.running.phase, h.running.accepts, ?_, rfl⟩
        have hd := h.running.digits
        rw [accepted_holding] at hd ⊢
        rw [Bytes.digits_append, List.append_assoc, e.writer.digits_takeComplete, hd]
      · rw [List.length_append, ← h.written]
    · simp only [hx]
      exact .inr (.inl ⟨_, _, rfl, hr, hh⟩)

theorem Sending.push (h : Sending c values sent e) (hw : p.writer = true) (value : UInt64) :
    Pushed c values sent p value (e.push p value).value := by
  have hf : ¬e.isFinished = true := by simp [isFinished, h.running.phase]
  have hc := h.running.config
  rw [Encoder.push, if_neg hf]
  simp only [Logged.value_bind]
  have hwb := (e.pack_bytesWritten value).trans h.written
  by_cases ha : c.Accepts value
  case pos =>
    obtain ⟨e₁, hpk⟩ := pack_accepts (hc.symm ▸ ha)
    have h₁ := h.pack hpk
    simp only [hpk]
    rcases h₁.handOver hw with ⟨block, e₂, p₂, hh, hp, h₂⟩ | ⟨e₂, p₂, hh, hr⟩ | ⟨e₂, hh, hr, hb⟩
    · simp only [hh]
      exact .stored ha hp h₂
    · simp only [hh, Logged.value_bind, abort_pipe]
      exact .waiting ha hr.left hr.right
    · simp only [hh, Logged.value_bind, abort_pipe]
      exact .gone ha hr rfl hb
  case neg =>
    rcases hpk : (e.pack value).value with ⟨cause | _, e₁⟩
    · rw [hpk] at hwb
      simp only [Logged.value_bind, abort_pipe]
      exact .refused ha (pack_error hpk) rfl hwb
    · exact absurd (hc ▸ (pack_ok hpk).left) ha

theorem Sending.finish (h : Sending c values sent e) (hw : p.writer = true) :
    Closed c values sent p (e.finish p) := by
  have hwhole := h.running.whole
  have hu := h.running.unfinished
  rw [accepted_holding] at hwhole hu
  have hb : (e.writer.put delimiter e.config.bits).bytes ≠ [] := by
    intro hn
    rw [hn, List.append_nil] at hwhole
    exact hwhole.not_unfinished hu
  simp only [Encoder.finish, h.running.phase]
  rcases Pipe.writeAll_cases hw hb with ⟨hr, hx⟩ | ⟨hr, hh, hx⟩ | ⟨hr, hh, hx⟩
  · simp only [hx]
    exact .gone hr rfl
  · simp only [hx]
    exact .whole hb hr hh hwhole rfl (by rw [List.length_append, ← h.written])
  · simp only [hx]
    exact .waiting hr hh

end BitPacking.Stream.Encoder
