import BitPacking.Proofs.Archive.Directory
import BitPacking.Proofs.Archive.Memory

namespace BitPacking.Archive.EntryEncoder

variable {σ : Type} [Archive σ]

def Created (e : EntryEncoder σ) : Prop :=
  ∃ name maxValue containsZero, (create name maxValue containsZero).value = .returned (.ok e)

namespace Session

-- What the owner is told is true, and after a failure the encoder is good for nothing.
structure Honest (s : Session σ) : Prop where
  stored  : ∀ o n, (o, .stored n) ∈ s.outcomes → s.drained = some (.returned (.ok n))
  -- Nobody reports on a drain that was joined before.
  awaited : ∀ o, s.call = some (o, .joining .report) → s.entry.drain ≠ .joined
  joined  : ∀ o cause, (o, .failed cause) ∈ s.outcomes → s.entry.drain = .joined
  later   : ∀ before o cause after, s.outcomes = before ++ (o, .failed cause) :: after →
    ∀ x ∈ after, x.1.values ≠ [] ∨ x.1 = .finish → x.2 = .failed .encoderAborted
  -- After a failure no call has to wait for anything.
  ready   : (∃ o cause, (o, .failed cause) ∈ s.outcomes) → ∀ o c, s.call = some (o, c) →
    (c.step s.entry).isSome = true
  refuses : (∃ o cause, (o, .failed cause) ∈ s.outcomes) → s.call = none → s.closed = false →
    ∀ o, o.values ≠ [] ∨ o = .finish → (s.order o).caller.caller.caller =
      { s with
        closed   := o.isFinal
        outcomes := s.outcomes ++ [(o, .failed .encoderAborted)] }

variable {T K : Write σ → Prop} {F : Completion Nat → Prop} {s : Session σ}

theorem Sound.awaited (h : Sound T K F s) {o : Order} (hc : s.call = some (o, .joining .report)) :
    s.entry.drain ≠ .joined := by
  have hne (o : Order) : o.call ≠ .joining .report := by cases o <;> nofun
  cases h
  case going hw _              =>
    cases hw
    case idle hn _         => rw [hc] at hn; cases hn
    case pushing hc' _ _   => rw [hc] at hc'; cases hc'
    case ending o' hc' _ _ =>
      rw [hc] at hc'
      exact absurd (congrArg Prod.snd (Option.some.inj hc')).symm (hne o')
  case failing hc' _ _ _ _     => rw [hc] at hc'; cases hc'
  case leaving hc' hl _ _ _    =>
    rw [hc] at hc'
    cases hc'
    cases hl
  case completing hd _         =>
    cases hd
    case running hw _ _ => simp [hw]
    case ended hx _     => simp [hx]
  case refusing hr _ _         =>
    cases hr
    case idle hn _         => rw [hc] at hn; cases hn
    case ordered o' hc' _  =>
      rw [hc] at hc'
      exact absurd (congrArg Prod.snd (Option.some.inj hc')).symm (hne o')
    case failing hc' hs _  =>
      rw [hc] at hc'
      cases hc'
      rcases hs with hs | hs
      all_goals cases hs
  case done hn _ _             => rw [hc] at hn; cases hn

theorem Sound.refuses (h : Sound T K F s) (hf : ∃ o cause, (o, .failed cause) ∈ s.outcomes)
    (hc : s.call = none) (hn : s.closed = false) {o : Order} (ho : o.values ≠ [] ∨ o = .finish) :
    (s.order o).caller.caller.caller = { s with
      closed   := o.isFinal
      outcomes := s.outcomes ++ [(o, .failed .encoderAborted)] } := by
  cases h
  case going ho                 => exact absurd hf ho.not_failed
  case failing ho               => exact absurd hf ho.not_failed
  case leaving ho               => exact absurd hf ho.not_failed
  case completing ho            => exact absurd hf ho.not_failed
  case done hn' _               => rw [hn] at hn'; cases hn'
  case refusing he hh hd _ _ _  =>
    have ⟨_, _, hstep⟩ := (step_refusing he hd o).resolve_right fun h => h.left ho
    have h₁ : ({ s with call := some (o, o.call), closed := o.isFinal } : Session σ).caller =
        { s with call := some (o, .aborting (.fail .encoderAborted)), closed := o.isFinal } :=
      caller_step rfl hstep nofun
    have h₂ : ({ s with
          call   := some (o, .aborting (.fail .encoderAborted))
          closed := o.isFinal } : Session σ).caller =
        { s with call := some (o, .joining (.fail .encoderAborted)), closed := o.isFinal } :=
      caller_step rfl (step_aborting_again hh) nofun
    have h₃ : ({ s with
          call   := some (o, .joining (.fail .encoderAborted))
          closed := o.isFinal } : Session σ).caller = { s with
        call     := none
        closed   := o.isFinal
        outcomes := s.outcomes ++ [(o, .failed .encoderAborted)] } :=
      caller_done rfl (step_joining_again hd _)
    rw [order_of_idle hc hn, h₁, h₂, h₃, ← hc]

theorem Sound.honest (h : Sound T K F s) : s.Honest where
  stored                := h.recorded.stored
  awaited _             := h.awaited
  joined o cause hm     := (h.recorded.failed o cause hm).left
  later                 := h.recorded.later
  ready hf _ _ hc       := h.never_waits hf hc
  refuses hf hc hn _ ho := h.refuses hf hc hn ho

end Session

-- All writes, of which nothing is known.
theorem Stages.any :
    Stages (σ := σ) (fun _ => True) (fun _ => True) (fun _ => True) where
  begin _                := trivial
  known _ _              := trivial
  turn _ _ _ _           := trivial
  feed _ _ _ _ _ _ _     := trivial
  done _ _ _ _           := trivial
  turn_known _ _ _ _     := trivial
  feed_known _ _ _ _ _ _ := trivial

namespace World

-- A world in which nobody can tell from the entries that there is an encoder.
structure Traceless (a : σ) (moves : List (Move σ)) (w : World σ) : Prop where
  untouched : w.Untouched
  alone     : (∀ m ∈ moves, m.ByEntries) →
    SameEntries (moves.foldl Move.alone a) w.archive

theorem honest (a : σ) {e : EntryEncoder σ} (h : e.Created) (moves : List (Move σ)) :
    ((start a e).run moves).session.Honest := by
  have ⟨_, _, _, he⟩ := h
  exact (session_run .any (Session.start_sound .any he) moves).honest

theorem traceless {T K : Write σ → Prop} {F : Completion Nat → Prop} (hT : Atomic T K F) (a : σ)
    {e : EntryEncoder σ} (h : e.Created) {moves : List (Move σ)} {o : Order} {cause : Error}
    (hm : (o, .failed cause) ∈ ((start a e).run moves).session.outcomes) :
    Traceless a moves ((start a e).run moves) := by
  have ⟨_, _, _, he⟩ := h
  have hs : (start a e).Sound T K F := ⟨Session.start_sound hT.stages he, .inl nofun⟩
  have hu := (hs.run hT moves).untouched hT hm
  exact ⟨hu, fun hb => hu.alone hb (.refl a)⟩

end World

theorem honest_and_traceless [Compression] :
    (∀ (σ : Type) [Archive σ] (a : σ) (e : EntryEncoder σ), e.Created → ∀ moves,
      ((World.start a e).run moves).session.Honest) ∧
    (∀ (m : Memory) (e : EntryEncoder Memory), e.Created → ∀ moves o cause,
      (o, .failed cause) ∈ ((World.start m e).run moves).session.outcomes →
      World.Traceless m moves ((World.start m e).run moves)) ∧
    ∀ (d : Directory) (e : EntryEncoder Directory), e.Created → ∀ moves o cause,
      (o, .failed cause) ∈ ((World.start d e).run moves).session.outcomes →
      World.Traceless d moves ((World.start d e).run moves) := by
  refine ⟨fun _ _ a e he moves => ?_, fun m e he moves o cause hm => ?_,
    fun d e he moves o cause hm => ?_⟩
  · exact World.honest a he moves
  · exact World.traceless Memory.atomic m he hm
  · exact World.traceless Directory.atomic d he hm

-- A value that is too large takes an entry with it.
theorem traceless_too_large : ∃ (e : EntryEncoder Memory) (moves : List (Move Memory)),
    (create "a" 1 true).value = .returned (.ok e) ∧
    ((World.start ⟨{}⟩ e).run moves).session.outcomes =
      [(.push 9, .failed (.valueTooLarge 10 2))] ∧
    World.Traceless ⟨{}⟩ moves ((World.start ⟨{}⟩ e).run moves) := by
  refine ⟨_, [.own (.order (.push 9)), .own .caller, .own .caller, .own .drain, .own .drain,
    .own .drain, .own .caller], rfl, by decide, ?_⟩
  exact honest_and_traceless.right.left _ _ ⟨"a", 1, true, rfl⟩ _ (.push 9) (.valueTooLarge 10 2)
    (by decide)

end BitPacking.Archive.EntryEncoder
