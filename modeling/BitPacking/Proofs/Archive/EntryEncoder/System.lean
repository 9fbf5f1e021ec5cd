import BitPacking.Proofs.Archive.EntryEncoder.Discipline
import BitPacking.Proofs.Stream.Decoder
import Mathlib.Algebra.BigOperators.Group.Finset.Basic
import Mathlib.Data.Fintype.Card

namespace BitPacking.Archive.EntryEncoder

structure Plan where
  name         : String
  maxValue     : UInt64
  containsZero : Bool

-- What happens next: an encoder is made, or it or its drain takes a turn.
inductive Act (ι : Type)
  | create (i : ι)
  | turn (i : ι) (turn : Turn)
deriving DecidableEq

-- An archive with the encoders that were made so far.
structure System (σ : Type) [Archive σ] (ι : Type) where
  archive  : σ
  sessions : ι → Option (Session σ)

variable {σ ι : Type} [Archive σ]

def Plan.create (p : Plan) : Option (Session σ) :=
  match (EntryEncoder.create p.name p.maxValue p.containsZero).value with
  | .returned (.ok e) => some (.start e)
  | _                 => none

namespace System

def start (a : σ) : System σ ι where
  archive    := a
  sessions _ := none

section run

variable [DecidableEq ι]

def put (y : System σ ι) (a : σ) (i : ι) (s : Session σ) : System σ ι where
  archive  := a
  sessions := Function.update y.sessions i (some s)

def step (plans : ι → Plan) (y : System σ ι) : Act ι → System σ ι
  | .create i =>
    match y.sessions i, (plans i).create with
    | none, some s => y.put y.archive i s
    | _, _         => y
  | .turn i t =>
    match y.sessions i with
    | none   => y
    | some s =>
      let (a, s) := s.take y.archive t
      y.put a i s

def run (plans : ι → Plan) (y : System σ ι) (acts : List (Act ι)) : System σ ι :=
  acts.foldl (step plans) y

@[simp]
theorem sessions_put_self (y : System σ ι) (a : σ) (i : ι) (s : Session σ) :
    (y.put a i s).sessions i = some s :=
  Function.update_self ..

theorem sessions_put_ne {i j : ι} (h : j ≠ i) (y : System σ ι) (a : σ) (s : Session σ) :
    (y.put a i s).sessions j = y.sessions j :=
  Function.update_of_ne h ..

end run

variable {D : Discipline σ} {plans : ι → Plan} {a a' : σ} {y : System σ ι} {i j : ι}
variable {s : Session σ}

def due (D : Discipline σ) (y : System σ ι) (i : ι) : Nat :=
  match y.sessions i with
  | none   => 1
  | some s => D.due s.entry

theorem due_some (h : y.sessions i = some s) : y.due D i = D.due s.entry := by
  rw [due, h]

variable [Fintype ι]

structure Sound (D : Discipline σ) (plans : ι → Plan) (a : σ) (y : System σ ι) : Prop where
  ready   : D.Ready (∑ i, y.due D i) y.archive
  tracked : ∀ i s, y.sessions i = some s → D.Plain (plans i).name ∧ ∃ c,
    (Config.stream (plans i).maxValue (plans i).containsZero).value = .ok c ∧
      c.containsZero = (plans i).containsZero ∧ s.Tracked D (plans i).name c y.archive
  others  : ∀ name, (∀ i, y.sessions i ≠ none → name ≠ (plans i).name) →
    stored? y.archive name = stored? a name

theorem start_sound (h : D.Ready (Fintype.card ι) a) :
    (start a : System σ ι).Sound D plans a := by
  refine ⟨?_, fun i s hs => ?_, fun _ _ => rfl⟩
  · have hsum : ∑ i : ι, (start a : System σ ι).due D i = Fintype.card ι :=
      Finset.sum_const 1 |>.trans (by simp)
    exact hsum ▸ h
  · cases hs

-- What becomes of an encoder that has come to its end without losing a push. The entry is the only
-- stream of the values, so that it does not matter which call was the last.
structure Delivered (a : σ) (p : Plan) (s : Session σ) : Prop where
  decoded : decodeEntry a p.name p.containsZero = ⟨s.pushed, none⟩
  stored  : ∃ c content before, (Config.stream p.maxValue p.containsZero).value = .ok c ∧
    stored? a p.name = some (.ok content) ∧
      (∀ bytes, Stream.Whole c s.pushed bytes ↔ bytes = content) ∧
      (s.outcomes = before ++
          [(.finish, .stored (1 + (c.bits * (s.pushed.length + 1) + 7) / 8))] ∨
        s.outcomes = before ++ [(.drop, .dropped)])

theorem Sound.delivered (h : y.Sound D plans a) (hs : y.sessions i = some s)
    (hc : s.call = none) (hn : s.closed = true)
    (hf : ∀ o cause, (o, .failed cause) ∈ s.outcomes → o.isFinal = true) :
    Delivered y.archive (plans i) s := by
  have ⟨_, c, hcfg, hz, ht⟩ := h.tracked i s hs
  have ⟨content, before, o, r, hw, ha, hk, ho, hr⟩ := ht.concluded hc hn hf
  refine ⟨?_, c, content, before, hcfg, hk, fun _ => ⟨hw.unique, (· ▸ hw)⟩, ?_⟩
  · have hsupplied : content <+: (Source.ofBytes content).supplied := by
      rw [Source.supplied_ofBytes]
    have ⟨d, _, hd, hdec⟩ := Stream.decode_whole hw ha hsupplied
    rw [decodeEntry, read_of_stored? hk, ← hz]
    simp only [Stream.decode, hd, hdec]
  · cases hr
    case finish => exact .inl (hw.length_eq ▸ ho)
    case drop   => exact .inr ho

variable [DecidableEq ι]

def dueBeside (D : Discipline σ) (y : System σ ι) (i : ι) : Nat :=
  ∑ j ∈ Finset.univ.erase i, y.due D j

theorem sum_due (y : System σ ι) (i : ι) : ∑ j, y.due D j = y.due D i + y.dueBeside D i :=
  (Finset.add_sum_erase _ _ (Finset.mem_univ i)).symm

theorem sum_due_put (y : System σ ι) (a : σ) (i : ι) (s : Session σ) :
    ∑ j, (y.put a i s).due D j = D.due s.entry + y.dueBeside D i := by
  rw [sum_due _ i, due_some (sessions_put_self ..)]
  refine congrArg _ (Finset.sum_congr rfl fun j hj => ?_)
  rw [due, sessions_put_ne (Finset.ne_of_mem_erase hj), due]

-- One of the encoders changes, in a way in which it may, and the archive with it.
theorem Sound.put (h : y.Sound D plans a) (hi : Function.Injective fun i => (plans i).name)
    (hr : D.Ready (D.due s.entry + y.dueBeside D i) a') (hp : D.Plain (plans i).name)
    (ha : a' = y.archive ∨ D.Apart (plans i).name y.archive a')
    (hs : ∃ c, (Config.stream (plans i).maxValue (plans i).containsZero).value = .ok c ∧
      c.containsZero = (plans i).containsZero ∧ s.Tracked D (plans i).name c a') :
    (y.put a' i s).Sound D plans a := by
  refine ⟨sum_due_put y a' i s ▸ hr, fun j s' hj => ?_, fun name hname => ?_⟩
  · by_cases hji : j = i
    case pos =>
      subst hji
      rw [sessions_put_self] at hj
      cases hj
      exact ⟨hp, hs⟩
    case neg =>
      rw [sessions_put_ne hji] at hj
      have ⟨hp', c, hc, hz, ht⟩ := h.tracked j s' hj
      refine ⟨hp', c, hc, hz, ?_⟩
      rcases ha with rfl | ha
      · exact ht
      · exact ht.apart ha hp fun he => hji (hi he)
  · have hmade (j : ι) (hj : y.sessions j ≠ none) : name ≠ (plans j).name := by
      refine hname j ?_
      by_cases hji : j = i
      · simp [hji]
      · rwa [sessions_put_ne hji]
    have ho := h.others name hmade
    rcases ha with rfl | ha
    · exact ho
    · exact (D.entry ha hp name (hname i (by simp))).trans ho

theorem Sound.step (h : y.Sound D plans a) (hi : Function.Injective fun i => (plans i).name)
    (hp : ∀ i, Name.validate (plans i).name = .ok () → '\x00' ∉ (plans i).name.toList →
      D.Plain (plans i).name) (act : Act ι) : (y.step plans act).Sound D plans a := by
  have hready (i : ι) : D.Ready (y.due D i + y.dueBeside D i) y.archive := sum_due y i ▸ h.ready
  cases act
  case create i =>
    rw [System.step]
    split
    case h_2           => exact h
    case h_1 s hn hc   =>
      simp only [Plan.create] at hc
      split at hc
      case h_2    => cases hc
      case h_1 he =>
        cases hc
        have ⟨hv, hn'⟩ := create_valid he
        have ⟨c, hc, hz, ht, hd⟩ := Session.start_tracked he (hp i hv hn') y.archive
        refine h.put hi (D.less ?_ (hready i)) (hp i hv hn') (.inl rfl) ⟨c, hc, hz, ht⟩
        rw [due, hn]
        exact Nat.add_le_add_right hd _
  case turn i t =>
    rw [System.step]
    split
    case h_1      => exact h
    case h_2 s hs =>
      have ⟨hplain, c, hc, hz, ht⟩ := h.tracked i s hs
      have ⟨hb, ht'⟩ := ht.take (due_some hs ▸ hready i) t
      exact h.put hi hb.ready hplain hb.apart ⟨c, hc, hz, ht'⟩

theorem Sound.run (h : y.Sound D plans a) (hi : Function.Injective fun i => (plans i).name)
    (hp : ∀ i, Name.validate (plans i).name = .ok () → '\x00' ∉ (plans i).name.toList →
      D.Plain (plans i).name) (acts : List (Act ι)) : (y.run plans acts).Sound D plans a := by
  induction acts generalizing y
  case nil              => exact h
  case cons act acts hr => exact hr (h.step hi hp act)

end System
end BitPacking.Archive.EntryEncoder
