import BitPacking.Proofs.Archive.Directory.Discipline
import BitPacking.Proofs.Archive.EntryEncoder.System
import BitPacking.Proofs.Archive.Memory
import BitPacking.Proofs.Lz4.Frame

namespace BitPacking.Archive.EntryEncoder.System

variable {σ ι : Type} [Archive σ] [Fintype ι]

-- What encoders leave of an archive: an entry of each that has ended without losing a push, and all
-- entries with other names.
structure Undisturbed (plans : ι → Plan) (a : σ) (y : System σ ι) : Prop where
  delivered : ∀ i s, y.sessions i = some s → s.call = none → s.closed = true →
    (∀ o cause, (o, .failed cause) ∈ s.outcomes → o.isFinal = true) →
      Delivered y.archive (plans i) s
  others    : ∀ name, (∀ i, y.sessions i ≠ none → name ≠ (plans i).name) →
    stored? y.archive name = stored? a name

theorem Sound.undisturbed {D : Discipline σ} {plans : ι → Plan} {a : σ} {y : System σ ι}
    (h : y.Sound D plans a) : Undisturbed plans a y where
  delivered _ _ hs := h.delivered hs
  others           := h.others

-- Names without slashes that leave room for those of staging files.
theorem plain_name {d : Directory} {plans : ι → Plan} (i : ι) (hs : '/' ∉ (plans i).name.toList)
    (ha : (plans i).name ≠ Directory.stagingArea)
    (hd : Directory.Ready (fun name => ∃ i, name = (plans i).name) (Fintype.card ι) d)
    (hv : Name.validate (plans i).name = .ok ()) (hn : '\x00' ∉ (plans i).name.toList) :
    Directory.Plain (fun name => ∃ i, name = (plans i).name) (plans i).name := by
  refine ⟨⟨i, rfl⟩, hv, hs, ha, ?_, ?_, hn⟩
  · have ⟨s, rest, hseg, hi, hu, _⟩ := Name.segments_of_valid hv
    rw [Name.segments_of_not_mem hs] at hseg
    cases hseg
    exact ⟨hi, hu⟩
  · have hcard : 0 < Fintype.card ι := Fintype.card_pos_iff.2 ⟨i⟩
    have hshort := hd.short _ ⟨i, rfl⟩ d.staged (Nat.lt_add_of_pos_right hcard)
    rw [String.utf8ByteSize_append] at hshort
    exact Nat.le_of_add_right_le hshort

section Lossless

variable [Compression] [Compression.Lossless]

-- In a directory, a valid name with a slash at its end cannot be written: its staging file would be
-- in a directory of its own, which nobody makes.
theorem undisturbed_of_run :
    (∀ (ι : Type) [Fintype ι] [DecidableEq ι] (plans : ι → Plan),
      (Function.Injective fun i => (plans i).name) → ∀ (m : Memory) (acts : List (Act ι)),
        Undisturbed plans m ((start m).run plans acts)) ∧
    ∀ (ι : Type) [Fintype ι] [DecidableEq ι] (plans : ι → Plan),
      (Function.Injective fun i => (plans i).name) →
      (∀ i, '/' ∉ (plans i).name.toList ∧ (plans i).name ≠ Directory.stagingArea) →
      ∀ d : Directory,
        Directory.Ready (fun name => ∃ i, name = (plans i).name) (Fintype.card ι) d →
        ∀ acts : List (Act ι), Undisturbed plans d ((start d).run plans acts) := by
  refine ⟨fun ι _ _ plans hi m acts => ?_, fun ι _ _ plans hi hp d hd acts => ?_⟩
  · have hs : (start m : System Memory ι).Sound Memory.discipline plans m := start_sound trivial
    exact (hs.run hi (fun _ hv _ => hv) acts).undisturbed
  · have hs : (start d : System Directory ι).Sound (Directory.discipline _) plans d :=
      start_sound hd
    exact (hs.run hi (fun i hv hn => plain_name i (hp i).left (hp i).right hd hv hn)
      acts).undisturbed

end Lossless

-- Two encoders of which one leaves zeros out.
def letters (b : Bool) : Plan where
  name         := if b then "a" else "b"
  maxValue     := 3
  containsZero := b

-- The one is finished while the other is dropped.
def letterTurns : List (Act Bool) :=
  let round  : List (Act Bool)           :=
    [true, false].flatMap fun b => [.turn b .caller, .turn (!b) .drain]
  let rounds (n : Nat) : List (Act Bool) := (List.replicate n round).flatten
  [.create true, .create false] ++
    [.turn true (.order (.push 0)), .turn false (.order (.extend [2, 1]))] ++ rounds 3 ++
    [.turn true (.order .finish), .turn false (.order .drop)] ++ rounds 6

theorem undisturbed_letters : ∃ d, Directory.prepare { processId := 7 } false = .ok d ∧
    let y := (start d).run letters letterTurns
    ∃ s t, y.sessions true = some s ∧ y.sessions false = some t ∧
      s.outcomes = [(.push 0, .pushed), (.finish, .stored 2)] ∧
      t.outcomes = [(.extend [2, 1], .pushed), (.drop, .dropped)] ∧
      Delivered y.archive (letters true) s ∧ Delivered y.archive (letters false) t := by
  refine ⟨_, rfl, ?_⟩
  intro y
  have hready := Directory.Ready.of_vacant (k := 2) (N := fun name => ∃ i, name = (letters i).name)
    (show Directory.prepare { processId := 7 } false = .ok _ from rfl)
    (.inl (Directory.vacant_empty 0)) (by decide) (by decide)
    (by rintro _ ⟨i, rfl⟩; revert i; decide)
  have hy : Undisturbed letters _ y :=
    undisturbed_of_run.right Bool letters (by decide) (by decide) _ hready letterTurns
  have hs : (y.sessions true).map (fun s => (s.call, s.closed, s.outcomes)) =
    some (none, true, [(.push 0, .pushed), (.finish, .stored 2)]) := by decide +kernel
  have ht : (y.sessions false).map (fun s => (s.call, s.closed, s.outcomes)) =
    some (none, true, [(.extend [2, 1], .pushed), (.drop, .dropped)]) := by decide +kernel
  have ⟨s, hs, hs'⟩ := Option.map_eq_some_iff.1 hs
  have ⟨t, ht, ht'⟩ := Option.map_eq_some_iff.1 ht
  simp only [Prod.mk.injEq] at hs' ht'
  have ⟨hsc, hsn, hso⟩ := hs'
  have ⟨htc, htn, hto⟩ := ht'
  refine ⟨s, t, hs, ht, hso, hto, ?_, ?_⟩
  · exact hy.delivered true s hs hsc hsn (by simp [hso])
  · exact hy.delivered false t ht htc htn (by simp [hto])

end BitPacking.Archive.EntryEncoder.System
