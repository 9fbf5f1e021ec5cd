import BitPacking.Proofs.Archive.Memory
import BitPacking.Proofs.Source

namespace BitPacking.Archive

section settle

variable {σ : Type} [Archive σ] {a : σ} {w : Write σ} {source : Source} {n : Nat}

def settle (a : σ) (w : Write σ) (source : Source) : Completion Nat × σ × Source :=
  (writeOn a w source []).value

theorem value_writeOn (past : List Event) :
    (writeOn a w source past).value = settle a w source := by
  have h (past past' : List Event) :
      (writeOn a w source past).value = (writeOn a w source past').value := by
    fun_induction writeOn a w source past generalizing past'
    case case1 c hr                   =>
      rw [writeOn]
      split
      case h_1 h => rw [hr] at h; cases h; rfl
      case h_2 h => rw [hr] at h; cases h
      case h_3 h => rw [hr] at h; cases h
    case case2 hr next hi             =>
      refine (hi _).symm.trans ?_
      rw [eq_comm, writeOn]
      split
      case h_1 h => rw [hr] at h; cases h
      case h_2 h => exact (hi _).symm
      case h_3 h => rw [hr] at h; cases h
    case case3 n hr x source' hs next hi =>
      rw [hi, eq_comm, writeOn]
      split
      case h_1 h => rw [hr] at h; cases h
      case h_2 h => rw [hr] at h; cases h
      case h_3 h =>
        rw [hr] at h
        cases h
        simp only [hs]
        exact (hi _).symm
  exact h past []

theorem settle_done {c : Completion Nat} (h : request w = .done c) :
    settle a w source = (c, a, source) := by
  rw [settle, writeOn]
  split
  case h_1 hr => rw [h] at hr; cases hr; rfl
  case h_2 hr => rw [h] at hr; cases hr
  case h_3 hr => rw [h] at hr; cases hr

theorem settle_turn (h : request w = .turn) :
    settle a w source = settle (turn a w).value.1 (turn a w).value.2 source := by
  rw [settle, writeOn]
  split
  case h_1 hr => rw [h] at hr; cases hr
  case h_2 hr => exact value_writeOn _
  case h_3 hr => rw [h] at hr; cases hr

theorem settle_input {source' : Source} {x : Source.Answer} (h : request w = .input n)
    (hs : source.read n = (x, source')) :
    settle a w source = settle (feed a w x).1 (feed a w x).2 source' := by
  rw [settle, writeOn]
  split
  case h_1 hr => rw [h] at hr; cases hr
  case h_2 hr => rw [h] at hr; cases hr
  case h_3 hr => rw [h] at hr; cases hr; simp only [hs, value_writeOn]

-- Where a write takes data as it comes and does not mind interruptions, it gets all that the source
-- supplies, block by block, and then an answer that tells the ending.
theorem settle_reading {R : List Bytes → σ → Write σ → Prop} (hn : 0 < n)
    (hask : ∀ {got a w}, R got a w → request w = .input n)
    (hdata : ∀ {got a w} bytes, R got a w →
      R (got ++ [bytes]) (feed a w (.data bytes)).1 (feed a w (.data bytes)).2)
    (hwait : ∀ {got a w}, R got a w → feed a w .interrupted = (a, w))
    {got : List Bytes} (h : R got a w) (source : Source) : ∃ a' w' source' x,
      R (got ++ source.blocks n) a' w' ∧ x.Final ∧ source.ending = x.outcome ∧
        settle a w source = settle (feed a' w' x).1 (feed a' w' x).2 source' := by
  induction hw : source.weight using Nat.strong_induction_on generalizing source got a w
  case h k hi =>
    match hr : source.read n with
    | (x, source') =>
      have hstep := settle_input (a := a) (hask h) hr
      by_cases hx : x.Final
      case pos =>
        have hi : x ≠ .interrupted := by rintro rfl; cases hx
        have hb := Source.blocks_of_final (Source.readOn_of_read hr hi) hx
        refine ⟨a, w, source', x, ?_, hx, (Source.read_of_final hn hr hx).right, hstep⟩
        rwa [hb, List.append_nil]
      case neg =>
        have he := (Source.read_of_not_final hr hx).right
        have hlt : source'.weight < k := hw ▸ Source.read_weight_lt hr hx
        cases x
        case data bytes  =>
          have ⟨a', w', source'', x', hR, hx', he', hset⟩ := hi _ hlt (hdata bytes h) source' rfl
          refine ⟨a', w', source'', x', ?_, hx', he ▸ he', hstep.trans hset⟩
          rwa [Source.blocks_of_readOn (Source.readOn_of_read hr nofun), List.append_cons]
        case interrupted =>
          have ⟨a', w', source'', x', hR, hx', he', hset⟩ := hi _ hlt h source' rfl
          refine ⟨a', w', source'', x', ?_, hx', he ▸ he', ?_⟩
          · rwa [Source.blocks_of_interrupted hr]
          · rw [hstep, hwait h, hset]
        all_goals exact absurd trivial hx

def written (a : σ) (name : String) (source : Source) : Completion Nat × σ :=
  let x := (write a name source).value
  (x.1, x.2.1)

def afterWrites (a : σ) (writes : List (String × Source)) : σ :=
  writes.foldl (fun a (name, source) => (written a name source).2) a

end settle

section AllOrNothing

variable {σ : Type} [Archive σ]

-- An archive with an entry stored, over one of that name, and no other entry changed.
structure Stores (a : σ) (name : String) (reading : Except Error Bytes) (a' : σ) : Prop where
  contains : Archive.contains a' name = true
  read     : Archive.read a' name = reading
  others   : ∀ n ≠ name, stored? a' n = stored? a n
  names    : ∀ n, n ∈ Archive.names a' ↔ n = name ∨ n ∈ Archive.names a

-- A write stores all that its source gives before it ends, unless there is an obstacle, which makes
-- it fail and store nothing.
inductive AllOrNothing (Obstacle : Error → Prop) (a : σ) (name : String) (source : Source)
    (reading : Except Error Bytes) : Completion Nat × σ → Prop
  | stored {a' : σ} (he : source.ending = .ok ()) (hs : Stores a name reading a') :
      AllOrNothing Obstacle a name source reading (.returned (.ok source.supplied.length), a')
  | refused {a' : σ} {e : Error} (ho : Obstacle e) (hs : SameEntries a a') :
      AllOrNothing Obstacle a name source reading (.returned (.error e), a')

end AllOrNothing

namespace Memory

inductive Obstacle (name : String) (source : Source) : Error → Prop
  | name {e : Error} (h : Name.validate name = .error e) : Obstacle name source e
  | source {e : IoError} (h : source.ending = .error e)  : Obstacle name source (.io e)

variable [Compression] {m : Memory} {name : String} {source : Source}

inductive Wrote (m : Memory) (name : String) (source : Source) : Completion Nat × Memory → Prop
  | invalid {e : Error} (hn : Name.validate name = .error e) :
      Wrote m name source (.returned (.error e), m)
  | failed {e : IoError} (hn : Name.validate name = .ok ()) (he : source.ending = .error e) :
      Wrote m name source (.returned (.error (.io e)), m)
  | stored (hn : Name.validate name = .ok ()) (he : source.ending = .ok ()) :
      Wrote m name source (.returned (.ok source.supplied.length),
        { entries := m.entries.insert name (Seal.ofSource source) })

theorem wrote (m : Memory) (name : String) (source : Source) :
    Wrote m name source (written m name source) := by
  have hbegin : request (σ := Memory) (begin name) = .turn := rfl
  rw [written, Archive.write, value_writeOn, settle_turn hbegin]
  simp only [begin, Archive.turn, Logged.value_pure, turn]
  split
  case h_2 e hn => rw [settle_done rfl]; exact .invalid hn
  case h_1 hn   =>
    let R (got : List Bytes) (m' : Memory) (w : Write) : Prop := m = m' ∧ w.Sealing name got
    obtain ⟨_, w, source', x, ⟨rfl, hw⟩, hx, he, hset⟩ :=
      settle_reading (R := R) (n := Bytes.blockSize) (by decide)
        (fun h => h.right.request) (fun bytes h => ⟨h.left, h.right.data bytes⟩)
        (fun h => congrArg (Prod.mk _) h.right.interrupted) ⟨rfl, .nil name⟩ source
    have hf : Archive.feed m w x = (m, w.feed x) := rfl
    rw [hset, hf]
    cases x
    case failure e   =>
      rw [hw.failure, settle_done rfl]
      exact .failed hn he
    case endOfInput  =>
      rw [hw.endOfInput, settle_turn rfl, settle_done rfl, List.nil_append,
        Source.flatten_blocks (show 0 < Bytes.blockSize by decide)]
      exact .stored hn he
    all_goals cases hx

theorem written_eq (m : Memory) (name : String) (source : Source) : written m name source =
    match Name.validate name, source.ending with
    | .error e, _     => (.returned (.error e), m)
    | .ok _, .error e => (.returned (.error (.io e)), m)
    | .ok _, .ok _    => (.returned (.ok source.supplied.length),
        { entries := m.entries.insert name (Seal.ofSource source) }) := by
  have h := wrote m name source
  generalize written m name source = x at h
  cases h
  case invalid hn   => rw [hn]
  case failed hn he => rw [hn, he]
  case stored hn he => rw [hn, he]

theorem mem_names_iff {n : String} : n ∈ names m ↔ (m.entries.get? n).isSome := by
  show n ∈ m.entries.keys.mergeSort (· ≤ ·) ↔ _
  rw [List.mem_mergeSort, Table.mem_keys_iff]

theorem stores_insert (m : Memory) (name : String) (sealed : Bytes) :
    Stores m name (Seal.contentOf name sealed)
      ({ entries := m.entries.insert name sealed } : Memory) where
  contains   := by simp [Archive.contains]
  read       := by simp [Archive.read, Memory.read]
  others n h := stored?_eq (by rw [Table.get?_insert, if_neg h])
  names n    := by
    rw [mem_names_iff, mem_names_iff, Table.get?_insert]
    by_cases h : n = name <;> simp [h]

theorem allOrNothing (m : Memory) (name : String) (source : Source) :
    AllOrNothing (Obstacle name source) m name source (Seal.contentOf name (Seal.ofSource source))
      (written m name source) := by
  have h := wrote m name source
  generalize written m name source = x at h
  cases h
  case invalid hn   => exact .refused (.name hn) (.refl m)
  case failed hn he => exact .refused (.source he) (.refl m)
  case stored hn he => exact .stored he (stores_insert m name _)

theorem allOrNothing_supplied [Compression.Lossless] (m : Memory) (name : String)
    (source : Source) : AllOrNothing (Obstacle name source) m name source (.ok source.supplied)
      (written m name source) := by
  rw [← Seal.contentOf_ofSource name source]
  exact m.allOrNothing name source

end Memory

end BitPacking.Archive
