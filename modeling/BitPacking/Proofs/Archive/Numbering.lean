import BitPacking.Proofs.Archive.Directory.Tidy
import BitPacking.Proofs.Archive.Refinement
import Mathlib.Order.Bounds.Basic

namespace BitPacking.Archive

section

variable {σ : Type} [Archive σ] {a : σ} {i j left : Nat} {n : String}

theorem le_freeFrom (a : σ) (i left : Nat) : i ≤ freeFrom a i left := by
  induction left generalizing i
  case zero         => exact Nat.le_refl i
  case succ left hi =>
    rw [freeFrom]
    split
    case isTrue  => exact (Nat.le_succ i).trans (hi (i + 1))
    case isFalse => exact Nat.le_refl i

theorem freeFrom_le (a : σ) (i left : Nat) : freeFrom a i left ≤ i + left := by
  induction left generalizing i
  case zero         => exact Nat.le_refl i
  case succ left hi =>
    rw [freeFrom]
    split
    case isTrue  => exact (hi (i + 1)).trans (by omega)
    case isFalse => exact Nat.le_add_right ..

theorem contains_of_lt_freeFrom (hi : i ≤ j) (hj : j < freeFrom a i left) :
    contains a (batchName j) = true := by
  induction left generalizing i
  case zero         => exact absurd hj (Nat.not_lt.2 hi)
  case succ left ih =>
    rw [freeFrom] at hj
    split at hj
    case isFalse   => exact absurd hj (Nat.not_lt.2 hi)
    case isTrue hc =>
      by_cases hx : j = i
      case pos => rwa [hx]
      case neg => exact ih (by omega) hj

def freshNumber (a : σ) : Nat :=
  freeFrom a (names a).length (names a).length

theorem freshName_eq (a : σ) : freshName a = batchName (freshNumber a) :=
  rfl

theorem freshNumber_le (a : σ) : freshNumber a ≤ 2 * (names a).length :=
  (freeFrom_le a ..).trans (by omega)

theorem isLeast_freshNumber (h : ∀ n, contains a n = true → n ∈ names a) :
    IsLeast {j | (names a).length ≤ j ∧ contains a (batchName j) = false} (freshNumber a) := by
  refine ⟨⟨le_freeFrom a .., not_contains_freshName h⟩, ?_⟩
  rintro j ⟨hj, hc⟩
  by_contra hlt
  rw [contains_of_lt_freeFrom hj (Nat.not_le.1 hlt)] at hc
  cases hc

theorem ne_freshName (h : ∀ n, contains a n = true → n ∈ names a) (hc : contains a n = true) :
    n ≠ freshName a := by
  rintro rfl
  rw [not_contains_freshName h] at hc
  cases hc

-- The number of entries is where the search starts, also where other names are among them.
example : freshName ({ entries := Table.insert {} "1.bin" [] } : Memory) = "2.bin" := by
  decide +kernel

end

section

variable {σ : Type} [Archive σ] {a : σ} {batch : Bytes} {Obstacle : Error → Prop}
variable {name n : String} {source : Source}

-- What storing a batch comes to, and the archive after it: the batch is all that is new, and the
-- number in its name is the least that the search can end with.
structure StoresNext (a : σ) (batch : Bytes) (i : Nat) (x : Completion String × σ) : Prop where
  returned : x.1 = .returned (.ok (batchName i))
  isLeast  : IsLeast {j | (names a).length ≤ j ∧ contains a (batchName j) = false} i
  le       : i ≤ 2 * (names a).length
  stores   : Stores a (batchName i) (.ok batch) x.2
  kept     : ∀ n, contains a n = true → stored? x.2 n = stored? a n
  ends     : ∃ k, Deposit.steps batch k a .counting = (x.2, .done x.1)

theorem storesNext_of_written (hl : ∀ n, contains a n = true → n ∈ names a)
    (ha : AllOrNothing Obstacle a (freshName a) (.ofBytes batch) (.ok batch)
      (written a (freshName a) (.ofBytes batch)))
    (hw : (written a (freshName a) (.ofBytes batch)).1 = .returned (.ok batch.length)) :
    StoresNext a batch (freshNumber a) (storeBatch a batch).value := by
  have hstores : Stores a (freshName a) (.ok batch)
      (written a (freshName a) (.ofBytes batch)).2 := by
    generalize written a (freshName a) (.ofBytes batch) = x at ha hw
    cases ha
    case stored hs => exact hs
    case refused   => cases hw
  constructor
  case returned =>
    show (written a (freshName a) (.ofBytes batch)).1.map _ = _
    rw [hw]
    rfl
  case isLeast  => exact isLeast_freshNumber hl
  case le       => exact freshNumber_le a
  case stores   => exact hstores
  case ends     => exact Deposit.exists_steps hl batch
  case kept     => exact fun n hn => hstores.others n (ne_freshName hl hn)

theorem AllOrNothing.stored?_of_ne {r : Except Error Bytes} {x : Completion Nat × σ}
    (h : AllOrNothing Obstacle a name source r x) (hn : n ≠ name) : stored? x.2 n = stored? a n := by
  cases h
  case stored hs  => exact hs.others n hn
  case refused hs => exact stored?_congr (hs.contains n) fun _ => hs.read n

end

def Call.batch? : Call → Option Bytes
  | storeBatch batch => some batch
  | _                => none

def Call.target? : Call → Option String
  | write name _ | copy _ name => some name
  | _                          => none

-- The batch that a call has stored, with the name that it has returned for it.
def Call.stored? : Call → Reply → Option (String × Bytes)
  | storeBatch batch, .batched (.returned (.ok name)) => some (name, batch)
  | _, _                                              => none

section

variable {σ : Type} [Archive σ]

def storedBatches (reopen : σ → Except Error σ) (a : σ) : List Call → List (String × Bytes)
  | []            => []
  | call :: calls =>
    let (r, a) := perform reopen a call
    (call.stored? r).toList ++ storedBatches reopen a calls

def afterCalls (reopen : σ → Except Error σ) (a : σ) (calls : List Call) : σ :=
  calls.foldl (fun a call => (perform reopen a call).2) a

-- Calls that do not write to the names that are returned for batches.
def Spared (reopen : σ → Except Error σ) (a : σ) (calls : List Call) : Prop :=
  ∀ call ∈ calls, ∀ name ∈ call.target?, name ∉ (storedBatches reopen a calls).map Prod.fst

-- What becomes of batches, and of the entries that were there before, over some calls.
structure Keeps (reopen : σ → Except Error σ) (a : σ) (calls : List Call) : Prop where
  all      : (storedBatches reopen a calls).map Prod.snd = calls.filterMap Call.batch?
  distinct : ((storedBatches reopen a calls).map Prod.fst).Nodup
  kept     : ∀ x ∈ storedBatches reopen a calls,
    stored? (afterCalls reopen a calls) x.1 = some (.ok x.2)
  others   : ∀ n, contains a n = true → (∀ call ∈ calls, n ∉ call.target?) →
    stored? (afterCalls reopen a calls) n = stored? a n

-- Archives that take batches for as long as they have room, and that stay like that whatever is
-- written to them.
structure Intake (reopen : σ → Except Error σ) (Room : Nat → σ → Prop) : Prop where
  listed  : ∀ k a, Room k a → ∀ n, contains a n = true → n ∈ names a
  reopens : ∀ k a, Room k a → reopen a = .ok a
  atomic  : ∀ (a : σ) name source, ∃ Obstacle,
    AllOrNothing Obstacle a name source (.ok source.supplied) (written a name source)
  takes   : ∀ k a batch, Room (k + 1) a →
    (written a (freshName a) (.ofBytes batch)).1 = .returned (.ok batch.length)
  less    : ∀ k a, Room (k + 1) a → Room k a
  keeps   : ∀ k a name source, Room (k + 1) a → Room k (written a name source).2

namespace Intake

variable {reopen : σ → Except Error σ} {Room : Nat → σ → Prop} {a : σ} {k : Nat} {n : String}

theorem storesNext (h : Intake reopen Room) (hr : Room (k + 1) a) (batch : Bytes) :
    StoresNext a batch (freshNumber a) (storeBatch a batch).value := by
  obtain ⟨_, ha⟩ := h.atomic a (freshName a) (.ofBytes batch)
  rw [Source.supplied_ofBytes] at ha
  exact storesNext_of_written (h.listed _ a hr) ha (h.takes k a batch hr)

theorem perform_eq (h : Intake reopen Room) (hr : Room k a) (call : Call) :
    (perform reopen a call).2 = a ∨ ∃ name source,
      (call.target? = some name ∨ call.batch?.isSome ∧ name = freshName a) ∧
        (perform reopen a call).2 = (written a name source).2 := by
  cases call
  case write name source => exact .inr ⟨name, source, .inl rfl, rfl⟩
  case storeBatch batch  => exact .inr ⟨freshName a, .ofBytes batch, .inr ⟨rfl, rfl⟩, rfl⟩
  case reopen            => refine .inl ?_; rw [perform, h.reopens k a hr]
  case copy name newName =>
    have hc : (perform reopen a (.copy name newName)).2 = (copy a a name newName).value.2 := rfl
    rw [hc, value_copy]
    rcases stored? a name with _ | _ | content
    case none | some.error => exact .inl rfl
    case some.ok           => exact .inr ⟨newName, .ofBytes content, .inl rfl, rfl⟩
  all_goals exact .inl rfl

theorem room_perform (h : Intake reopen Room) (hr : Room (k + 1) a) (call : Call) :
    Room k (perform reopen a call).2 := by
  rcases h.perform_eq hr call with he | ⟨name, source, -, he⟩
  · rw [he]; exact h.less k a hr
  · rw [he]; exact h.keeps k a name source hr

theorem stored?_perform (h : Intake reopen Room) (hr : Room k a) {call : Call}
    (hc : contains a n = true) (ht : n ∉ call.target?) :
    stored? (perform reopen a call).2 n = stored? a n := by
  rcases h.perform_eq hr call with he | ⟨name, source, hn, he⟩
  · rw [he]
  · have hne : n ≠ name := by
      rcases hn with hn | ⟨-, rfl⟩
      · rintro rfl
        exact ht hn
      · exact ne_freshName (h.listed k a hr) hc
    obtain ⟨_, ha⟩ := h.atomic a name source
    rw [he]
    exact ha.stored?_of_ne hne

theorem stored?_reply (h : Intake reopen Room) (hr : Room (k + 1) a) (call : Call) :
    call.stored? (perform reopen a call).1 = call.batch?.map fun batch => (freshName a, batch) := by
  cases call
  case storeBatch batch =>
    have hs := (h.storesNext hr batch).returned
    simp only [perform, hs, Call.stored?, Call.batch?, freshName_eq, Option.map_some]
  all_goals rfl

theorem stored?_freshName (h : Intake reopen Room) (hr : Room (k + 1) a) {call : Call}
    {batch : Bytes} (hb : call.batch? = some batch) :
    stored? (perform reopen a call).2 (freshName a) = some (.ok batch) := by
  cases call
  case storeBatch => cases hb; exact (h.storesNext hr batch).stores.stored?
  all_goals cases hb

variable {calls : List Call}

theorem storedBatches_cons (h : Intake reopen Room) (hr : Room (k + 1) a) (call : Call)
    (calls : List Call) : storedBatches reopen a (call :: calls) =
      (call.batch?.map fun batch => (freshName a, batch)).toList ++
        storedBatches reopen (perform reopen a call).2 calls := by
  rw [← h.stored?_reply hr]
  rfl

theorem map_snd_storedBatches (h : Intake reopen Room) (hr : Room calls.length a) :
    (storedBatches reopen a calls).map Prod.snd = calls.filterMap Call.batch? := by
  induction calls generalizing a
  case nil                => rfl
  case cons call calls hi =>
    rw [h.storedBatches_cons hr, List.map_append, hi (h.room_perform hr call)]
    cases hb : call.batch?
    case none => rw [List.filterMap_cons_none hb]; rfl
    case some => rw [List.filterMap_cons_some hb]; rfl

-- What no call is told to write to is left alone, and is not given to a batch.
theorem stored?_afterCalls (h : Intake reopen Room) (hr : Room calls.length a)
    (hc : contains a n = true) (ht : ∀ call ∈ calls, n ∉ call.target?) :
    stored? (afterCalls reopen a calls) n = stored? a n ∧
      n ∉ (storedBatches reopen a calls).map Prod.fst := by
  induction calls generalizing a
  case nil                => exact ⟨rfl, by simp [storedBatches]⟩
  case cons call calls hi =>
    rw [List.forall_mem_cons] at ht
    have hstep := h.stored?_perform hr hc ht.left
    have hc' : contains (perform reopen a call).2 n = true := by
      rw [← isSome_stored?, hstep, isSome_stored?, hc]
    obtain ⟨hs, hn⟩ := hi (h.room_perform hr call) hc' ht.right
    refine ⟨hs.trans hstep, ?_⟩
    rw [h.storedBatches_cons hr, List.map_append, List.mem_append, not_or]
    refine ⟨?_, hn⟩
    rcases call.batch? with _ | batch
    case none => simp
    case some => exact fun hm => ne_freshName (h.listed _ a hr) hc (List.mem_singleton.1 hm)

-- A batch is there from the time on when it was stored, since it is what no later call writes to.
theorem kept_of_spared (h : Intake reopen Room) (hr : Room calls.length a)
    (hs : Spared reopen a calls) : ((storedBatches reopen a calls).map Prod.fst).Nodup ∧
      ∀ x ∈ storedBatches reopen a calls,
        stored? (afterCalls reopen a calls) x.1 = some (.ok x.2) := by
  induction calls generalizing a
  case nil                => exact ⟨.nil, by simp [storedBatches]⟩
  case cons call calls hi =>
    have hroom := h.room_perform hr call
    have hcons := h.storedBatches_cons hr call calls
    rw [Spared, hcons, List.map_append] at hs
    obtain ⟨-, hs⟩ := List.forall_mem_cons.1 hs
    obtain ⟨hd, hk⟩ := hi hroom fun c hc n hn hm => hs c hc n hn (List.mem_append_right _ hm)
    rw [hcons]
    cases hb : call.batch?
    case none       => exact ⟨hd, hk⟩
    case some batch =>
      rw [hb] at hs
      have hnew := h.stored?_freshName hr hb
      have hc : contains (perform reopen a call).2 (freshName a) = true := by
        rw [← isSome_stored?, hnew]
        rfl
      obtain ⟨hs, hn⟩ := h.stored?_afterCalls hroom hc fun c hc ht => hs c hc _ ht (by simp)
      exact ⟨List.nodup_cons.2 ⟨hn, hd⟩, List.forall_mem_cons.2 ⟨hs.trans hnew, hk⟩⟩

theorem keeps_of_spared (h : Intake reopen Room) (hr : Room calls.length a)
    (hs : Spared reopen a calls) : Keeps reopen a calls where
  all            := h.map_snd_storedBatches hr
  distinct       := (h.kept_of_spared hr hs).left
  kept           := (h.kept_of_spared hr hs).right
  others _ hc ht := (h.stored?_afterCalls hr hc ht).left

end Intake

theorem exists_batchName_of_mem {reopen : σ → Except Error σ} {a : σ} {calls : List Call}
    {x : String × Bytes} (h : x ∈ storedBatches reopen a calls) : ∃ i, x.1 = batchName i := by
  induction calls generalizing a
  case nil                => cases h
  case cons call calls hi =>
    replace h := List.mem_append.1 h
    rcases h with h | h
    case inr => exact hi h
    case inl =>
      cases call
      case storeBatch batch =>
        simp only [value_storeBatch] at h
        generalize written a (freshName a) (.ofBytes batch) = y at h
        rcases y with ⟨(e | n) | _, a'⟩
        case returned.ok => exact ⟨freshNumber a, congrArg Prod.fst (List.mem_singleton.1 h)⟩
        all_goals cases h
      all_goals cases h

theorem spared_of_not_isDigit {calls : List Call}
    (h : ∀ call ∈ calls, ∀ name ∈ call.target?, name.toList.any Char.isDigit = false)
    (reopen : σ → Except Error σ) (a : σ) : Spared reopen a calls := by
  intro call hc name hn hm
  obtain ⟨x, hx, rfl⟩ := List.mem_map.1 hm
  obtain ⟨i, hi⟩ := exists_batchName_of_mem hx
  exact ne_batchName (h call hc _ hn) i hi

end

section Lossless

variable [Compression] [Compression.Lossless]

theorem Memory.intake : Intake (σ := Memory) .ok fun _ _ => True where
  listed _ m _ n hc  := Memory.mem_names_iff.2 hc
  reopens _ _ _      := rfl
  atomic m name src  := ⟨_, Memory.allOrNothing_supplied m name src⟩
  takes _ m batch _  := by
    rw [freshName_eq, Memory.written_eq, Deposit.validate_batchName, Source.ending_ofBytes,
      Source.supplied_ofBytes]
  less _ _ _         := trivial
  keeps _ _ _ _ _    := trivial

theorem Directory.intake :
    Intake (σ := Directory) (prepare · false) fun k d => d.Tidy ∧ d.Roomy k where
  listed _ d _ n hc    := mem_names_of_contains hc
  reopens _ d hr       := prepare_self hr.right.shallow hr.left.root hr.left.area
  atomic d name src    := ⟨_, d.allOrNothing_supplied name src⟩
  takes _ d batch hr   := by
    have hn : (Archive.names d).length + (_ + 1) ≤ 2 ^ 63 := hr.right.names
    have hi : freshNumber d < 2 ^ 64 := by
      have hle := freshNumber_le d
      omega
    exact written_batchName hr.left hr.right hi batch
  less _ _ hr          := ⟨hr.left, hr.right.less⟩
  keeps _ _ name src h := ⟨h.left.written name src, h.right.written name src⟩

-- A batch is stored under the least number that is free, from the number of entries on, and nothing
-- is lost with it, in memory and in a directory of nothing but entries. As long as nobody writes to
-- the names that are returned, they are all different, and what was stored under them is there.
theorem storesNext_and_keeps (m : Memory) (d : Directory) (batch : Bytes) (calls : List Call) :
    (∃ i, StoresNext m batch i (storeBatch m batch).value) ∧
      (d.Tidy → d.Roomy 1 → ∃ i, StoresNext d batch i (storeBatch d batch).value) ∧
      (Spared .ok m calls → Keeps .ok m calls) ∧
      (d.Tidy → d.Roomy calls.length → Spared (Directory.prepare · false) d calls →
        Keeps (Directory.prepare · false) d calls) :=
  ⟨⟨_, Memory.intake.storesNext (k := 0) trivial batch⟩,
    fun ht hr => ⟨_, Directory.intake.storesNext ⟨ht, hr⟩ batch⟩,
    fun hs => Memory.intake.keeps_of_spared trivial hs,
    fun ht hr hs => Directory.intake.keeps_of_spared ⟨ht, hr⟩ hs⟩

end Lossless

-- Two batches with a write and a copy between them, in an archive that is opened once more.
theorem storesNext_and_keeps_reopened :
    let calls : List Call := [.storeBatch [1], .write "x" (.ofBytes [7]), .copy "x" "y", .reopen,
      .storeBatch [2]]
    ∃ d, Directory.prepare { processId := 7 } false = .ok d ∧ d.Tidy ∧ d.Roomy calls.length ∧
      (∃ i, StoresNext d [1] i (storeBatch d [1]).value) ∧ Keeps .ok ({} : Memory) calls ∧
      Keeps (Directory.prepare · false) d calls := by
  intro calls
  obtain ⟨d, hd⟩ : ∃ d, Directory.prepare { processId := 7 } false = .ok d := ⟨_, rfl⟩
  have ht := Directory.Tidy.of_vacant hd (.inl (Directory.vacant_empty 0))
  obtain ⟨hpid, hst, hlead, -⟩ : d.processId = 7 ∧ d.staged = 0 ∧ d.files.lead = 0 ∧ _ :=
    Directory.prepare_vacant hd (.inl (Directory.vacant_empty 0))
  have hnames := Directory.fileNames_of_vacant hd (.inl (Directory.vacant_empty 0))
  have hroom (k : Nat) (hk : k ≤ 5) : d.Roomy k := by
    refine ⟨by rw [FileTree.Shallow, hlead]; decide, by rw [hpid]; decide, ?_, ?_⟩
    · rw [hst]
      omega
    · rw [hnames, List.length_nil]
      omega
  have hdigits : ∀ call ∈ calls, ∀ name ∈ call.target?,
      name.toList.any Char.isDigit = false := by
    simp [calls, Call.target?]
  obtain ⟨-, hnext, hm, hk⟩ := storesNext_and_keeps {} d [1] calls
  exact ⟨d, hd, ht, hroom 5 (Nat.le_refl _), hnext ht (hroom 1 (by decide)),
    hm (spared_of_not_isDigit hdigits _ _),
    hk ht (hroom 5 (Nat.le_refl _)) (spared_of_not_isDigit hdigits _ _)⟩

end BitPacking.Archive
