import BitPacking.Proofs.Archive.EntryEncoder.Failure

namespace BitPacking.Archive

-- Archives that nobody can tell apart by their entries.
structure SameEntries {σ : Type} [Archive σ] (a a' : σ) : Prop where
  read     : ∀ name, Archive.read a' name = Archive.read a name
  contains : ∀ name, Archive.contains a' name = Archive.contains a name
  names    : Archive.names a' = Archive.names a

theorem SameEntries.refl {σ : Type} [Archive σ] (a : σ) : SameEntries a a :=
  ⟨fun _ => rfl, fun _ => rfl, rfl⟩

theorem SameEntries.trans {σ : Type} [Archive σ] {a a' a'' : σ} (h : SameEntries a a')
    (h' : SameEntries a' a'') : SameEntries a a'' where
  read name     := (h'.read name).trans (h.read name)
  contains name := (h'.contains name).trans (h.contains name)
  names         := h'.names.trans h.names

namespace EntryEncoder

variable {σ : Type} [Archive σ]

-- Writes that touch the entries at one point only, where they succeed, and that get there only when
-- they were told that their input is complete.
structure Atomic (T K : Write σ → Prop) (F : Completion Nat → Prop) : Prop where
  stages  : Stages T K F
  failing : ∀ c, F c → ∀ n, c ≠ .returned (.ok n)
  feed    : ∀ a w n x, request w = .input n → K w → SameEntries a (Archive.feed a w x).1
  turn    : ∀ a w, request w = .turn → K w → SameEntries a (Archive.turn a w).value.1 ∨
    ∃ n, request (Archive.turn a w).value.2 = .done (.returned (.ok n))

structure World (σ : Type) [Archive σ] where
  archive : σ
  session : Session σ
  -- The archive before and after each step of the encoder and its drain, in order.
  trail   : List (σ × σ) := []

-- What happens next: a step of the encoder or its drain, or somebody else changes the archive.
inductive Move (σ : Type)
  | own (turn : Turn)
  | others (change : σ → σ)

namespace Move

def alone (a : σ) : Move σ → σ
  | own _         => a
  | others change => change a

-- Others who go by the entries only.
def ByEntries : Move σ → Prop
  | own _         => True
  | others change => ∀ a a', SameEntries a a' → SameEntries (change a) (change a')

end Move

namespace World

def start (a : σ) (e : EntryEncoder σ) : World σ where
  archive := a
  session := .start e

def step (w : World σ) : Move σ → World σ
  | .own t         =>
    let (archive, session) := w.session.take w.archive t
    { archive, session, trail := w.trail ++ [(w.archive, archive)] }
  | .others change => { w with archive := change w.archive }

def run (w : World σ) (moves : List (Move σ)) : World σ :=
  moves.foldl step w

-- A write that is about to succeed, or has succeeded.
inductive Succeeded (s : Session σ) : Prop
  | running {w : Write σ} {n : Nat} (h : s.entry.drain = .running w)
      (hr : request w = .done (.returned (.ok n))) (hd : s.drained = none)
  | drained {n : Nat} (h : ∀ w, s.entry.drain ≠ .running w)
      (hd : s.drained = some (.returned (.ok n)))

def Untouched (w : World σ) : Prop :=
  ∀ x ∈ w.trail, SameEntries x.1 x.2

variable {T K : Write σ → Prop} {w : World σ} {s : Session σ} {a : σ}

theorem Succeeded.caller (h : Succeeded s) : Succeeded s.caller := by
  have ⟨hd, hn⟩ := s.caller_drain
  cases h
  case running x n h hr hd' =>
    rcases hd with hd | ⟨⟨_, he⟩, _⟩
    · exact .running (hd.trans h) hr (hn.trans hd')
    · rw [h] at he
      cases he
  case drained n h hd'    =>
    refine .drained (fun w hw => ?_) (hn.trans hd')
    rcases hd with hd | ⟨_, hj⟩
    · exact h w (hd.symm.trans hw)
    · rw [hj] at hw
      cases hw

theorem Succeeded.drain (h : Succeeded s) (a : σ) : Succeeded (s.drain a).2 := by
  cases h
  case drained n h hd      =>
    rw [Session.drain_idle a h]
    exact .drained h hd
  case running x n h hr hd =>
    rw [Session.drain_done a h hr]
    exact .drained nofun rfl

theorem Succeeded.order (h : Succeeded s) (o : Order) : Succeeded (s.order o) := by
  have ⟨he, hd⟩ := s.entry_order o
  cases h
  case running h hr hn => exact .running (he ▸ h) hr (hd.trans hn)
  case drained h hn    => exact .drained (he ▸ h) (hd.trans hn)

theorem Succeeded.take (h : Succeeded s) (a : σ) (t : Turn) : Succeeded (s.take a t).2 := by
  cases t
  case order o => exact h.order o
  case caller  => exact h.caller
  case drain   => exact h.drain a

-- A turn that makes a difference is one that succeeds.
theorem take_entries {F : Completion Nat → Prop} (hT : Atomic T K F) (h : s.Sound T K F) (a : σ)
    (t : Turn) : SameEntries a (s.take a t).1 ∨ Succeeded (s.take a t).2 := by
  cases t
  case order => exact .inl (.refl a)
  case caller => exact .inl (.refl a)
  case drain =>
    have hx := s.drain_cases a
    simp only [Session.take]
    generalize s.drain a = x at hx
    cases hx
    case idle          => exact .inl (.refl a)
    case wait          => exact .inl (.refl a)
    case done          => exact .inl (.refl a)
    case turn x hw hr  =>
      have ⟨hk, hn⟩ := h.running hT.stages hw
      refine (hT.turn a x hr hk).imp_right fun ⟨n, hd⟩ => ?_
      exact .running rfl hd hn
    case feed hw hr _  =>
      have ⟨hk, _⟩ := h.running hT.stages hw
      exact .inl (hT.feed a _ _ _ hr hk)

structure Sound (T K : Write σ → Prop) (F : Completion Nat → Prop) (w : World σ) : Prop where
  session : w.session.Sound T K F
  trail   : w.Untouched ∨ Succeeded w.session

variable {F : Completion Nat → Prop}

theorem session_run (hs : Stages T K F) (h : w.session.Sound T K F) (moves : List (Move σ)) :
    (w.run moves).session.Sound T K F := by
  induction moves generalizing w
  case nil          => exact h
  case cons m ms hi =>
    refine hi ?_
    cases m
    case others => exact h
    case own t  => exact h.take hs w.archive t

theorem Sound.step (hT : Atomic T K F) (h : w.Sound T K F) (m : Move σ) :
    (w.step m).Sound T K F := by
  refine ⟨session_run hT.stages h.session [m], ?_⟩
  cases m
  case others => exact h.trail
  case own t  =>
    rcases h.trail with hu | hs
    · refine (take_entries hT h.session w.archive t).imp_left fun he => ?_
      exact List.forall_mem_append.2 ⟨hu, List.forall_mem_singleton.2 he⟩
    · exact .inr (hs.take w.archive t)

theorem Sound.run (hT : Atomic T K F) (h : w.Sound T K F) (moves : List (Move σ)) :
    (w.run moves).Sound T K F := by
  induction moves generalizing w
  case nil          => exact h
  case cons m ms hi => exact hi (h.step hT m)

-- Where a call has failed, none of the steps made a difference.
theorem Sound.untouched (hT : Atomic T K F) (h : w.Sound T K F) {o : Order} {cause : Error}
    (hm : (o, .failed cause) ∈ w.session.outcomes) : w.Untouched := by
  have ⟨hj, c, hd, hc⟩ := h.session.recorded.failed o cause hm
  have hc : ∀ n, c ≠ .returned (.ok n) := hc.elim (hT.failing c) id
  refine h.trail.resolve_right fun hs => ?_
  cases hs
  case running hw _ _ => rw [hj] at hw; cases hw
  case drained hn     =>
    rw [hd] at hn
    cases hn
    exact hc _ rfl

theorem trail_run (w : World σ) (moves : List (Move σ)) : w.trail <+: (w.run moves).trail := by
  induction moves generalizing w
  case nil          => exact List.prefix_rfl
  case cons m ms hi =>
    refine List.IsPrefix.trans ?_ (hi (w.step m))
    cases m
    case others => exact List.prefix_rfl
    case own    => exact List.prefix_append ..

-- Where none of the steps made a difference, the entries are those that there would be without the
-- encoder.
theorem Untouched.alone {moves : List (Move σ)} (h : (w.run moves).Untouched)
    (hm : ∀ m ∈ moves, m.ByEntries) (ha : SameEntries a w.archive) :
    SameEntries (moves.foldl Move.alone a) (w.run moves).archive := by
  induction moves generalizing w a
  case nil          => exact ha
  case cons m ms hi =>
    have ⟨hm, hms⟩ := List.forall_mem_cons.1 hm
    refine hi h hms ?_
    cases m
    case others => exact hm a w.archive ha
    case own    =>
      refine ha.trans (h (_, _) ?_)
      exact (trail_run _ ms).subset (List.mem_append_right _ (List.mem_singleton_self _))

end World
end EntryEncoder
end BitPacking.Archive
