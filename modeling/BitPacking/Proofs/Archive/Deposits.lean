import BitPacking.Proofs.Archive.Deposit
import BitPacking.Proofs.Lz4.Frame
import Mathlib.Data.List.Induction
import Mathlib.Logic.Function.Basic

namespace BitPacking.Archive

namespace Deposit

section

variable {σ : Type} [Archive σ]

def name? : Deposit σ → Option String
  | writing name _ _            => some name
  | done (.returned (.ok name)) => some name
  | _                           => none

def stored? : Deposit σ → Option String
  | writing name write _        =>
    match request write with
    | .done (.returned (.ok _)) => some name
    | _                         => none
  | done (.returned (.ok name)) => some name
  | _                           => none

def returned? : Deposit σ → Option String
  | done (.returned (.ok name)) => some name
  | _                           => none

theorem name?_of_stored? {c : Deposit σ} {n : String} (h : c.stored? = some n) :
    c.name? = some n := by
  unfold stored? at h
  split at h
  case h_1 =>
    split at h
    case h_1 => exact h
    case h_2 => cases h
  case h_2 => exact h
  case h_3 => cases h

theorem stored?_of_returned? {c : Deposit σ} {n : String} (h : c.returned? = some n) :
    c.stored? = some n := by
  unfold returned? at h
  split at h
  case h_1 => exact h
  case h_2 => cases h

end

theorem validate_batchName (i : Nat) : Name.validate (batchName i) = .ok () := by
  obtain ⟨c, hm, hc⟩ := exists_digit_batchName i
  obtain ⟨hi, hu⟩ := Name.not_idle_of_digit hm hc
  exact Name.validate_of_not_mem (fun hm => absurd (of_mem_batchName hm) (by decide)) hi hu

variable [Compression]

-- How far a call has come with its batch.
inductive Sound (batch : Bytes) : Deposit Memory → Prop
  | counting : Sound batch counting
  | probing (i : Nat) : Sound batch (probing i)
  | validating (i : Nat) :
      Sound batch (writing (batchName i) (Memory.Write.validating (batchName i)) (.ofBytes batch))
  | sealing {got : List Bytes} {w : Memory.Write} {source : Source} (i : Nat)
      (hw : w.Sealing (batchName i) got)
      (hg : got ++ source.blocks Bytes.blockSize = (Source.ofBytes batch).blocks Bytes.blockSize)
      (he : source.ending = .ok ()) :
      Sound batch (writing (batchName i) w source)
  | storing (i : Nat) (source : Source) :
      Sound batch (writing (batchName i)
        (Memory.Write.storing (batchName i) (Seal.ofSource (.ofBytes batch)) batch.length) source)
  | stored (i : Nat) (source : Source) :
      Sound batch (writing (batchName i) (Memory.Write.done (.ok batch.length)) source)
  | done (i : Nat) : Sound batch (done (.returned (.ok (batchName i))))

variable {m m' : Memory} {batch : Bytes} {c c' : Deposit Memory} {n : String}

-- What a step does: a name that it finds is free, and the entry of that name is all that it changes
-- once the batch is stored.
structure Moved (m : Memory) (batch : Bytes) (c : Deposit Memory) (m' : Memory)
    (c' : Deposit Memory) : Prop where
  sound  : c'.Sound batch
  name   : ∀ n, c.name? = some n → c'.name? = some n
  found  : ∀ n, c'.name? = some n →
    c.name? = some n ∨ m.entries.get? n = none ∧ c'.stored? = none
  stored : c'.stored? = c.stored? ∧ m' = m ∨ ∃ n, c.stored? = none ∧ c'.stored? = some n ∧
    m' = { entries := m.entries.insert n (Seal.ofSource (.ofBytes batch)) }

theorem Moved.of_same (hs : c'.Sound batch) (hn : c'.name? = c.name?)
    (hst : c'.stored? = c.stored?) : Moved m batch c m c' :=
  ⟨hs, fun _ => hn.trans, fun _ h => .inl (hn.symm.trans h), .inl ⟨hst, rfl⟩⟩

theorem stored?_sealing {got : List Bytes} {w : Memory.Write} {name : String}
    (hw : w.Sealing name got) (source : Source) :
    (writing name w source : Deposit Memory).stored? = none := by
  simp only [stored?, Archive.request, hw.request]

theorem moved_sealing {got : List Bytes} {w : Memory.Write} {source : Source} (i : Nat)
    (hw : w.Sealing (batchName i) got)
    (hg : got ++ source.blocks Bytes.blockSize = (Source.ofBytes batch).blocks Bytes.blockSize)
    (he : source.ending = .ok ()) (m : Memory) :
    let c : Deposit Memory := writing (batchName i) w source
    Moved m batch c (c.step m batch).1 (c.step m batch).2 := by
  intro c
  rcases hr : source.read Bytes.blockSize with ⟨x, source'⟩
  have hc : c.step m batch = (m, writing (batchName i) (w.feed x) source') := by
    simp only [c, step, Archive.request, hw.request, hr]
    rfl
  have hst : c.stored? = none := stored?_sealing hw source
  rw [hc]
  by_cases hx : x.Final
  case pos =>
    have hi : x ≠ .interrupted := by rintro rfl; cases hx
    have hend := (Source.read_of_final (by decide) hr hx).right
    rw [Source.blocks_of_final (Source.readOn_of_read hr hi) hx, List.append_nil] at hg
    rw [he] at hend
    cases x
    case endOfInput =>
      have hl : got.flatten.length = batch.length := by
        rw [hg, Source.flatten_blocks (by decide), Source.supplied_ofBytes]
      rw [hw.endOfInput, hl, hg]
      exact .of_same (.storing i source') rfl hst.symm
    case failure    => cases hend
    all_goals cases hx
  case neg =>
    rw [← (Source.read_of_not_final hr hx).right] at he
    cases x
    case data bytes  =>
      have hr := Source.readOn_of_read hr (by rintro ⟨⟩)
      rw [Source.blocks_of_readOn hr, List.append_cons] at hg
      have hw' := hw.data bytes
      exact .of_same (.sealing i hw' hg he) rfl ((stored?_sealing hw' source').trans hst.symm)
    case interrupted =>
      rw [Source.blocks_of_interrupted hr] at hg
      rw [hw.interrupted]
      exact .of_same (.sealing i hw hg he) rfl rfl
    all_goals exact absurd trivial hx

theorem moved (h : c.Sound batch) (m : Memory) :
    Moved m batch c (c.step m batch).1 (c.step m batch).2 := by
  cases h
  case counting            => exact .of_same (.probing _) rfl rfl
  case probing i           =>
    simp only [step]
    split
    case isTrue     => exact .of_same (.probing _) rfl rfl
    case isFalse hc =>
      refine ⟨.validating i, fun n hn => ?_, fun n hn => .inr ⟨?_, rfl⟩, .inl ⟨rfl, rfl⟩⟩
      · cases hn
      · cases hn
        simpa [contains] using hc
  case validating i        =>
    let begun := Memory.Write.sealing (batchName i) [] {}
    have hs : Sound batch (writing (batchName i) begun (.ofBytes batch)) :=
      .sealing i (.nil _) rfl (by simp)
    have hc : (writing (batchName i) (Memory.Write.validating (batchName i))
        (.ofBytes batch) : Deposit Memory).step m batch =
          (m, writing (batchName i) begun (.ofBytes batch)) := by
      simp only [step, Archive.request, Memory.Write.request, Archive.turn, Memory.turn,
        validate_batchName, Logged.value_pure, begun]
    rw [hc]
    exact .of_same hs rfl rfl
  case sealing i hw hg he  => exact moved_sealing i hw hg he m
  case storing i source    =>
    exact ⟨.stored i source, fun _ => id, fun _ => .inl, .inr ⟨_, rfl, rfl, rfl⟩⟩
  case stored i source     => exact .of_same (.done i) rfl rfl
  case done i              => exact .of_same (.done i) rfl rfl

end Deposit

structure Deposits (σ ι : Type) [Archive σ] where
  archive : σ
  calls   : ι → Deposit σ := fun _ => .counting

namespace Deposits

variable {σ ι : Type} [Archive σ] [DecidableEq ι]

def step (batches : ι → Bytes) (t : Deposits σ ι) (i : ι) : Deposits σ ι :=
  let x := (t.calls i).step t.archive (batches i)
  { archive := x.1, calls := Function.update t.calls i x.2 }

def run (batches : ι → Bytes) (t : Deposits σ ι) (turns : List ι) : Deposits σ ι :=
  turns.foldl (step batches) t

-- Whether at some time both calls have found the same name and none of the two has stored anything.
def Crosses (batches : ι → Bytes) (t : Deposits σ ι) (turns : List ι) (i j : ι) : Prop :=
  ∃ front, front <+: turns ∧ ∃ n,
    (((run batches t front).calls i).name? = some n ∧
      ((run batches t front).calls i).stored? = none) ∧
    ((run batches t front).calls j).name? = some n ∧
      ((run batches t front).calls j).stored? = none

variable {batches : ι → Bytes} {t : Deposits σ ι} {turns turns' : List ι} {i j k : ι} {n : String}

theorem calls_step_self (batches : ι → Bytes) (t : Deposits σ ι) (i : ι) :
    (t.step batches i).calls i = ((t.calls i).step t.archive (batches i)).2 :=
  Function.update_self ..

theorem calls_step_of_ne (batches : ι → Bytes) (t : Deposits σ ι) (h : j ≠ i) :
    (t.step batches i).calls j = t.calls j :=
  Function.update_of_ne h ..

theorem run_append (batches : ι → Bytes) (t : Deposits σ ι) (turns turns' : List ι) :
    run batches t (turns ++ turns') = run batches (run batches t turns) turns' :=
  List.foldl_append

theorem Crosses.symm (h : Crosses batches t turns i j) : Crosses batches t turns j i := by
  obtain ⟨front, hp, n, hi, hj⟩ := h
  exact ⟨front, hp, n, hj, hi⟩

theorem Crosses.append (h : Crosses batches t turns i j) (turns' : List ι) :
    Crosses batches t (turns ++ turns') i j := by
  obtain ⟨front, hp, hx⟩ := h
  exact ⟨front, hp.trans (List.prefix_append ..), hx⟩

section

variable [Compression] {m : Memory} {t t' : Deposits Memory ι}

-- What can be told of the archive at any time: what was there before is there still, and under each
-- new name there is the batch of one of the calls that have stored theirs under it.
structure Sound (m : Memory) (batches : ι → Bytes) (t : Deposits Memory ι) : Prop where
  calls  : ∀ i, (t.calls i).Sound (batches i)
  fresh  : ∀ i n, (t.calls i).name? = some n → m.entries.get? n = none
  others : ∀ n, (∀ i, (t.calls i).stored? ≠ some n) →
    t.archive.entries.get? n = m.entries.get? n
  stored : ∀ i n, (t.calls i).stored? = some n → ∃ k, (t.calls k).stored? = some n ∧
    t.archive.entries.get? n = some (Seal.ofSource (.ofBytes (batches k)))

omit [DecidableEq ι] in
theorem start_sound (m : Memory) (batches : ι → Bytes) :
    Sound m batches ({ archive := m } : Deposits Memory ι) where
  calls _      := .counting
  fresh _ _ h  := by cases h
  others _ _   := rfl
  stored _ _ h := by cases h

omit [DecidableEq ι] in
theorem Sound.free (h : Sound m batches t) (hn : t.archive.entries.get? n = none) :
    m.entries.get? n = none ∧ ∀ i, (t.calls i).stored? ≠ some n := by
  have hs (i : ι) : (t.calls i).stored? ≠ some n := by
    intro hi
    obtain ⟨k, -, hk⟩ := h.stored i n hi
    cases hn.symm.trans hk
  exact ⟨h.others n hs ▸ hn, hs⟩

theorem Sound.stored?_step (h : Sound m batches t) (i : ι) :
    ((∀ j, ((t.step batches i).calls j).stored? = (t.calls j).stored?) ∧
      (t.step batches i).archive = t.archive) ∨
    ∃ n, (t.calls i).stored? = none ∧ ((t.step batches i).calls i).stored? = some n ∧
      (∀ j ≠ i, ((t.step batches i).calls j).stored? = (t.calls j).stored?) ∧
      (t.step batches i).archive =
        { entries := t.archive.entries.insert n (Seal.ofSource (.ofBytes (batches i))) } := by
  have hm := Deposit.moved (h.calls i) t.archive
  rw [← calls_step_self] at hm
  have hne : ∀ j ≠ i, ((t.step batches i).calls j).stored? = (t.calls j).stored? :=
    fun j hj => congrArg _ (calls_step_of_ne batches t hj)
  rcases hm.stored with ⟨hs, ha⟩ | ⟨n, hs, hs', ha⟩
  · refine .inl ⟨fun j => ?_, ha⟩
    by_cases hj : j = i
    case pos => exact hj ▸ hs
    case neg => exact hne j hj
  · exact .inr ⟨n, hs, hs', hne, ha⟩

theorem Sound.step (h : Sound m batches t) (i : ι) : Sound m batches (t.step batches i) := by
  have hm := Deposit.moved (h.calls i) t.archive
  rw [← calls_step_self] at hm
  constructor
  case calls  =>
    intro j
    by_cases hj : j = i
    case pos => exact hj ▸ hm.sound
    case neg => exact calls_step_of_ne batches t hj ▸ h.calls j
  case fresh  =>
    intro j n hn
    by_cases hj : j = i
    case pos =>
      subst hj
      rcases hm.found n hn with hn | ⟨hn, -⟩
      · exact h.fresh j n hn
      · exact (h.free hn).left
    case neg => exact h.fresh j n (calls_step_of_ne batches t hj ▸ hn)
  case others =>
    intro n hn
    rcases h.stored?_step i with ⟨hs, ha⟩ | ⟨n', hs, hs', hj, ha⟩
    · rw [ha]
      exact h.others n fun j => hs j ▸ hn j
    · have hne : n ≠ n' := fun he => hn i (he ▸ hs')
      rw [ha, Table.get?_insert, if_neg hne]
      refine h.others n fun j => ?_
      by_cases hx : j = i
      case pos => simp [hx, hs]
      case neg => exact hj j hx ▸ hn j
  case stored =>
    intro j n hn
    rcases h.stored?_step i with ⟨hs, ha⟩ | ⟨n', hs, hs', hj, ha⟩
    · rw [hs] at hn
      obtain ⟨k, hk, he⟩ := h.stored j n hn
      exact ⟨k, hs k ▸ hk, ha ▸ he⟩
    · by_cases hx : n = n'
      case pos => exact ⟨i, hx ▸ hs', by rw [ha, Table.get?_insert, if_pos hx]⟩
      case neg =>
        -- Whoever has stored under another name did so before.
        have hold {k : ι} (hk : ((t.step batches i).calls k).stored? = some n) : k ≠ i := by
          rintro rfl
          exact hx (Option.some.inj (hk.symm.trans hs'))
        rw [hj j (hold hn)] at hn
        obtain ⟨k, hk, he⟩ := h.stored j n hn
        have hki : k ≠ i := by
          rintro rfl
          cases hs.symm.trans hk
        exact ⟨k, (hj k hki).trans hk, by rw [ha, Table.get?_insert, if_neg hx, he]⟩

theorem Sound.run (h : Sound m batches t) (turns : List ι) :
    Sound m batches (t.run batches turns) := by
  induction turns generalizing t
  case nil             => exact h
  case cons i turns hi => exact hi (h.step i)

theorem Sound.name?_run (h : Sound m batches t) (hn : (t.calls i).name? = some n)
    (turns : List ι) : ((t.run batches turns).calls i).name? = some n := by
  induction turns generalizing t
  case nil             => exact hn
  case cons j turns hi =>
    refine hi (h.step j) ?_
    by_cases hj : i = j
    case pos =>
      subst hj
      rw [calls_step_self]
      exact (Deposit.moved (h.calls i) t.archive).name n hn
    case neg => rwa [calls_step_of_ne batches t hj]

-- Where two calls have come to the same name, neither of them had stored its batch when the second
-- one found it.
theorem crosses_of_name? (m : Memory) (batches : ι → Bytes) (turns : List ι) (hne : i ≠ j)
    (hi : ((run batches { archive := m } turns).calls i).name? = some n)
    (hj : ((run batches { archive := m } turns).calls j).name? = some n) :
    Crosses batches { archive := m } turns i j := by
  induction turns using List.reverseRecOn
  case nil                  => cases hi
  case append_singleton turns k hind =>
    have h := (start_sound m batches).run turns
    rw [run_append] at hi hj
    generalize ht : Deposits.run batches { archive := m } turns = t at h hind hi hj
    -- A call that has the name but had not takes this step, and the other one had it before.
    have hfound {i j : ι} (hne : i ≠ j) (hi : ((t.step batches k).calls i).name? = some n)
        (hj : ((t.step batches k).calls j).name? = some n) (hold : (t.calls j).name? ≠ some n) :
        Crosses batches { archive := m } (turns ++ [k]) i j := by
      have hk : j = k := by
        by_contra hk
        exact hold (calls_step_of_ne batches t hk ▸ hj)
      subst hk
      have hm := Deposit.moved (h.calls j) t.archive
      rw [← calls_step_self] at hm
      obtain ⟨hfree, hnone⟩ := (hm.found n hj).resolve_left hold
      have hs : ((t.step batches j).calls i).stored? = none := by
        rw [calls_step_of_ne batches t hne] at hi ⊢
        by_contra hs
        obtain ⟨n', hs⟩ := Option.ne_none_iff_exists'.1 hs
        cases hi.symm.trans (Deposit.name?_of_stored? hs)
        exact (h.free hfree).right i hs
      refine ⟨_, List.prefix_rfl, n, ?_⟩
      rw [run_append, ht]
      exact ⟨⟨hi, hs⟩, hj, hnone⟩
    by_cases hi' : (t.calls i).name? = some n
    case neg => exact (hfound hne.symm hj hi hi').symm
    case pos =>
      by_cases hj' : (t.calls j).name? = some n
      case neg => exact hfound hne hi hj hj'
      case pos => exact (hind hi' hj').append [k]

-- What becomes of several batches that are stored at once. Two calls return the same name exactly
-- if both had found it before one of them had stored anything, and a batch that shares its name
-- with no other is kept.
theorem kept_of_run (m : Memory) (batches : ι → Bytes) (turns : List ι) {name : String}
    (hi : ((run batches { archive := m } turns).calls i).returned? = some name) :
    let t := run batches { archive := m } turns
    (∀ j ≠ i, ∀ name', (t.calls j).returned? = some name' →
      (name' ≠ name ↔ ¬Crosses batches { archive := m } turns i j)) ∧
    ((∀ j ≠ i, ¬Crosses batches { archive := m } turns i j) →
      Compression.Lossless → read t.archive name = .ok (batches i)) ∧
    (∃ k, (t.calls k).stored? = some name ∧
      (Compression.Lossless → read t.archive name = .ok (batches k))) ∧
    contains m name = false ∧
    ∀ n, contains m n = true → contains t.archive n = true ∧ read t.archive n = read m n := by
  intro t
  have h : Sound m batches t := (start_sound m batches).run turns
  have hs := Deposit.stored?_of_returned? hi
  have hn := Deposit.name?_of_stored? hs
  obtain ⟨k, hk, he⟩ := h.stored i name hs
  have hr (hl : Compression.Lossless) : read t.archive name = .ok (batches k) := by
    simp only [Archive.read, Memory.read, he, Seal.contentOf_ofSource, Source.supplied_ofBytes]
  refine ⟨fun j hj name' hj' => not_congr ⟨?_, ?_⟩, fun hx => ?_, ⟨k, hk, hr⟩, ?_, fun n hm => ?_⟩
  · rintro rfl
    exact crosses_of_name? m batches turns hj.symm hn
      (Deposit.name?_of_stored? (Deposit.stored?_of_returned? hj'))
  · rintro ⟨front, ⟨rest, rfl⟩, n, ⟨hni, -⟩, hnj, -⟩
    have hf := (start_sound m batches).run front
    have hni := hf.name?_run hni rest
    have hnj := hf.name?_run hnj rest
    rw [← run_append] at hni hnj
    cases hni.symm.trans hn
    cases hnj.symm.trans (Deposit.name?_of_stored? (Deposit.stored?_of_returned? hj'))
    rfl
  · by_cases hki : k = i
    case pos => exact hki ▸ hr
    case neg =>
      exact absurd (crosses_of_name? m batches turns (Ne.symm hki) hn (Deposit.name?_of_stored? hk))
        (hx k hki)
  · simp only [contains, h.fresh i name hn, Option.isSome_none]
  · have hm : (m.entries.get? n).isSome = true := hm
    have hg := h.others n fun j hj => by
      rw [h.fresh j n (Deposit.name?_of_stored? hj)] at hm
      cases hm
    exact ⟨(congrArg Option.isSome hg).trans hm, by simp only [Archive.read, Memory.read, hg]⟩

end

-- Two calls one after the other.
theorem kept_of_run_apart :
    let batches := fun later : Bool => if later then [2] else [1]
    let turns := List.replicate 9 false ++ List.replicate 9 true
    let t := run batches { archive := ({} : Memory) } turns
    ¬Crosses batches { archive := ({} : Memory) } turns false true ∧
      (t.calls false).returned? = some "0.bin" ∧ read t.archive "0.bin" = .ok [1] := by
  intro batches turns t
  have h₀ : (t.calls false).returned? = some "0.bin" := by decide +kernel
  have h₁ : (t.calls true).returned? = some "1.bin" := by decide +kernel
  obtain ⟨hx, hr, -⟩ := kept_of_run {} batches turns h₀
  have hx := (hx true (by decide) "1.bin" h₁).1 (by decide)
  refine ⟨hx, h₀, hr (fun j hj => ?_) inferInstance⟩
  obtain rfl : j = true := by simpa using hj
  exact hx

-- Two calls step by step: both find the first number free, and the batch of one is lost.
theorem not_kept_of_crossing :
    let t := run (fun later => if later then [2] else [1]) { archive := ({} : Memory) }
      (List.replicate 9 [false, true]).flatten
    (t.calls false).returned? = some "0.bin" ∧ (t.calls true).returned? = some "0.bin" ∧
      read t.archive "0.bin" = .ok [2] := by
  decide +kernel

end Deposits
end BitPacking.Archive
