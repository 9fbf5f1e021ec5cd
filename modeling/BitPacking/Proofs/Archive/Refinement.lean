import BitPacking.Proofs.Archive.Directory.Write
import Mathlib.Data.List.Sort
import Mathlib.Data.String.Basic

namespace BitPacking.Archive

-- What is asked of an archive. An archive in memory is there all the time, but one in a directory
-- can be opened once more.
inductive Call
  | write (name : String) (source : Source)
  | read (name : String)
  | contains (name : String)
  | names
  | copy (name newName : String)
  | storeBatch (batch : Bytes)
  | reopen

inductive Reply
  | wrote (completion : Completion Nat)
  | content (outcome : Except Error Bytes)
  | contained (found : Bool)
  | listed (names : List String)
  | copied (completion : Completion Bool)
  | batched (completion : Completion String)
  | reopened (outcome : Except Error Unit)

section Call

variable {σ : Type} [Archive σ]

def perform (reopen : σ → Except Error σ) (a : σ) : Call → Reply × σ
  | .write name source =>
    let (c, a) := written a name source
    (.wrote c, a)
  | .read name         => (.content (read a name), a)
  | .contains name     => (.contained (contains a name), a)
  | .names             => (.listed (names a), a)
  | .copy name newName =>
    let (c, a) := (copy a a name newName).value
    (.copied c, a)
  | .storeBatch batch  =>
    let (c, a) := (storeBatch a batch).value
    (.batched c, a)
  | .reopen            =>
    match reopen a with
    | .ok a    => (.reopened (.ok ()), a)
    | .error e => (.reopened (.error e), a)

def replies (reopen : σ → Except Error σ) (a : σ) : List Call → List Reply
  | []            => []
  | call :: calls =>
    let (r, a) := perform reopen a call
    r :: replies reopen a calls

def Call.about (a : σ) : Call → List String
  | write name _ | read name | contains name => [name]
  | copy name newName                        => [name, newName]
  | storeBatch _                             => [freshName a]
  | names | reopen                           => []

def about (reopen : σ → Except Error σ) (a : σ) : List Call → List String
  | []            => []
  | call :: calls => call.about a ++ about reopen (perform reopen a call).2 calls

theorem value_storeBatch (a : σ) (batch : Bytes) : (storeBatch a batch).value =
    let (c, a') := written a (freshName a) (.ofBytes batch)
    (c.map fun _ => freshName a, a') :=
  rfl

theorem value_copy (a : σ) (name newName : String) : (copy a a name newName).value =
    match stored? a name with
    | none               => (.returned (.ok false), a)
    | some (.error e)    => (.returned (.error e), a)
    | some (.ok content) =>
      let (c, a') := written a newName (.ofBytes content)
      (c.map fun _ => true, a') := by
  rw [copy, stored?]
  split
  case isFalse => rfl
  case isTrue  =>
    cases read a name
    case error => rfl
    case ok    => rfl

end Call

section Agree

variable {σ τ : Type} [Archive σ] [Archive τ] {a a' : σ} {b b' : τ} {name : String}

-- Archives that cannot be told apart by what is stored in them.
structure Agree (a : σ) (b : τ) : Prop where
  stored : ∀ n, stored? b n = stored? a n
  names  : ∀ n, n ∈ names b ↔ n ∈ names a

theorem isSome_stored? (a : σ) (name : String) : (stored? a name).isSome = contains a name := by
  rw [stored?]
  by_cases h : contains a name = true <;> simp [h]

theorem Agree.contains (h : Agree a b) (name : String) : contains b name = contains a name := by
  rw [← isSome_stored?, h.stored, isSome_stored?]

theorem Agree.read (h : Agree a b) (hc : Archive.contains a name = true) :
    read b name = read a name := by
  have hs := h.stored name
  rw [stored?, stored?, if_pos hc, if_pos (h.contains name ▸ hc)] at hs
  exact Option.some.inj hs

theorem Stores.stored? {r : Except Error Bytes} (h : Stores a name r a') :
    stored? a' name = some r := by
  rw [Archive.stored?, if_pos h.contains, h.read]

theorem Agree.stores {r : Except Error Bytes} (h : Agree a b) (ha : Stores a name r a')
    (hb : Stores b name r b') : Agree a' b' where
  stored n := by
    by_cases hn : n = name
    case pos => rw [hn, ha.stored?, hb.stored?]
    case neg => rw [ha.others n hn, hb.others n hn, h.stored]
  names n  := by rw [ha.names, hb.names, h.names]

theorem Agree.sameEntries (h : Agree a b) (ha : SameEntries a a') (hb : SameEntries b b') :
    Agree a' b' where
  stored n := by
    rw [stored?_congr (ha.contains n) fun _ => ha.read n,
      stored?_congr (hb.contains n) fun _ => hb.read n, h.stored]
  names n  := by rw [ha.names, hb.names, h.names]

theorem Agree.freeFrom (h : Agree a b) (i left : Nat) : freeFrom b i left = freeFrom a i left := by
  induction left generalizing i
  case zero        => rfl
  case succ left hi => rw [Archive.freeFrom, Archive.freeFrom, h.contains, hi]

theorem Agree.freshName (h : Agree a b) (hn : Archive.names b = Archive.names a) :
    freshName b = freshName a := by
  rw [Archive.freshName, Archive.freshName, hn, h.freeFrom]

theorem mergeSort_eq_of_mem {xs ys : List String} (hx : xs.Nodup) (hy : ys.Nodup)
    (h : ∀ n, n ∈ xs.mergeSort (· ≤ ·) ↔ n ∈ ys.mergeSort (· ≤ ·)) :
    xs.mergeSort (· ≤ ·) = ys.mergeSort (· ≤ ·) := by
  refine List.Perm.eq_of_pairwise' (List.pairwise_mergeSort' (· ≤ ·) xs)
    (List.pairwise_mergeSort' (· ≤ ·) ys) ?_
  refine (List.perm_ext_iff_of_nodup ?_ ?_).2 h
  · rwa [(List.mergeSort_perm _ _).nodup_iff]
  · rwa [(List.mergeSort_perm _ _).nodup_iff]

end Agree

namespace Directory

variable {N : String → Prop} {k : Nat} {d : Directory} {name : String}

theorem own_of_placeForFile {p : FileTree.Place} (hr : Ready N (1 + k) d) (hp : Plain N name)
    (h : d.files.placeForFile (d.stagingPath name) = .ok p) :
    p = d.stagingPath name ∧ Own d.processId name p := by
  have hown := own_stagingPath hr hp
  have hb := hr.inside hp (hr.short name hp.mem d.staged (by omega))
  have hl := (FileTree.placeForFile_eq_ok_iff.1 h).left
  rw [stagingPath_of_not_mem hp.slash] at hl hown ⊢
  cases hl.symm.trans hb.locate
  exact ⟨rfl, hown⟩

-- A name that is fit for an entry of an archive of either kind, and that leaves room for what
-- staging files add to it.
structure PlainName (processId numbers : Nat) (name : String) : Prop where
  nonempty : name ≠ ""
  here     : name ≠ "."
  up       : name ≠ ".."
  area     : name ≠ stagingArea
  slash    : '/' ∉ name.toList
  nul      : '\x00' ∉ name.toList
  room     : ∀ j < numbers, (name ++ suffix processId j).utf8ByteSize ≤ FileTree.nameLimit

instance (processId numbers : Nat) (name : String) :
    Decidable (PlainName processId numbers name) :=
  decidable_of_iff (name ≠ "" ∧ name ≠ "." ∧ name ≠ ".." ∧ name ≠ stagingArea ∧
      '/' ∉ name.toList ∧ '\x00' ∉ name.toList ∧
        ∀ j < numbers, (name ++ suffix processId j).utf8ByteSize ≤ FileTree.nameLimit)
    ⟨fun ⟨h₀, h₁, h₂, h₃, h₄, h₅, h₆⟩ => ⟨h₀, h₁, h₂, h₃, h₄, h₅, h₆⟩,
      fun h => ⟨h.nonempty, h.here, h.up, h.area, h.slash, h.nul, h.room⟩⟩

theorem PlainName.plain {processId numbers : Nat} (h : PlainName processId numbers name)
    (hn : 0 < numbers) : Plain (PlainName processId numbers) name where
  mem    := h
  valid  := Name.validate_of_not_mem h.slash (not_or.2 ⟨h.nonempty, h.here⟩) h.up
  slash  := h.slash
  area   := h.area
  proper := by
    refine ⟨⟨not_or.2 ⟨h.nonempty, h.here⟩, h.up⟩, ?_, h.nul⟩
    have hroom := h.room 0 hn
    rw [String.utf8ByteSize_append] at hroom
    exact Nat.le_of_add_right_le hroom

end Directory

theorem Memory.Obstacle.source_of_valid {name : String} {source : Source} {e : Error}
    (h : Memory.Obstacle name source e) (hv : Name.validate name = .ok ()) :
    ∃ e', e = .io e' ∧ source.ending = .error e' := by
  cases h
  case name hn     => rw [hv] at hn; cases hn
  case source e he => exact ⟨e, rfl, he⟩

section

variable [Compression]

namespace Directory

open FileTree (Alters)

variable {N : String → Prop} {k : Nat} {m : Memory} {d : Directory} {name : String}
variable {source : Source} {e : Error}

theorem Obstacle.source_of_plain (hr : Ready N (1 + k) d) (hp : Plain N name)
    (h : Obstacle d name source e) : ∃ e', e = .io e' ∧ source.ending = .error e' := by
  cases h
  case name hn             => rw [hp.entryPath] at hn; cases hn
  case staging hc          => rw [create_own hr hp (own_stagingPath hr hp)] at hc; cases hc
  case source e he         => exact ⟨e, rfl, he⟩
  case placing p hn hpl he =>
    obtain ⟨hq, hown⟩ := own_of_placeForFile hr hp hpl
    obtain ⟨j, rfl, hshort⟩ := id hown
    have hr' := hr.alters hp ((hr.refl hp).set hown.belongs (Seal.ofSource source))
      (Nat.le_refl _)
    have hf := (hr'.inside hp hshort).rename hp.proper (FileTree.node?_set_self ..)
      (hr'.entries name hp.mem)
    cases hn.symm.trans hp.entryPath
    rw [← hq] at he
    exact absurd (he.symm.trans hf) nofun

theorem Ready.written (hr : Ready N (1 + k) d) (hp : Plain N name) (source : Source) :
    Ready N k (written d name source).2 := by
  have h := wrote d name source
  generalize Archive.written d name source = x at h
  have ha := hr.refl hp
  have hk : d.staged + 1 + k ≤ d.staged + (1 + k) := by omega
  cases h
  case invalid               => exact hr.less (by omega)
  case unstaged hn hc hf     => rw [create_own hr hp (own_stagingPath hr hp)] at hc; cases hc
  case failed hn hpl he      =>
    exact hr.alters hp (ha.erase (own_of_placeForFile hr hp hpl).right.belongs) hk
  case unplaced hn hpl he _  =>
    exact hr.alters hp (ha.erase (own_of_placeForFile hr hp hpl).right.belongs) hk
  case stored p hn hpl he hd =>
    exact hr.alters hp
      ((ha.erase (own_of_placeForFile hr hp hpl).right.belongs).set (.inl rfl) _) hk

structure Mirrors (N : String → Prop) (k : Nat) (m : Memory) (d : Directory) : Prop where
  agree : Agree m d
  ready : Ready N k d

namespace Mirrors

theorem names (h : Mirrors N k m d) : Archive.names d = Archive.names m :=
  mergeSort_eq_of_mem d.files.nodup_topNames m.entries.nodup h.agree.names

theorem read_of_not_contains (hr : Ready N k d) (hp : Plain N name)
    (hc : Archive.contains d name = false) :
    Archive.read d name = .error (.entryNotFound name) := by
  have hl := FileTree.locate_top hr.shallow hp.proper hr.root
  have hread : d.files.read [name] = .error .notFound := by
    match hn : d.files.node? [name] with
    | some (.file content) =>
      rw [contains_of_entryPath hp.entryPath, FileTree.isFile, FileTree.read_eq_ok hl hn] at hc
      cases hc
    | some .directory      => exact absurd hn (hr.entries name hp.mem)
    | none                 => simp only [FileTree.read, hl, bind, Except.bind, hn]
  simp only [Archive.read, Directory.read, hp.entryPath, bind, Except.bind, hread]

theorem read (h : Mirrors N k m d) (hp : Plain N name) :
    Archive.read d name = Archive.read m name := by
  match hc : Archive.contains m name with
  | true  => exact h.agree.read hc
  | false =>
    rw [read_of_not_contains h.ready hp (by rw [h.agree.contains, hc])]
    have hn : m.entries.get? name = none :=
      Option.isNone_iff_eq_none.1 (Option.isSome_eq_false_iff.1 hc)
    simp only [Archive.read, Memory.read, hn]

theorem written (h : Mirrors N (1 + k) m d) (hp : Plain N name) (source : Source) :
    (Archive.written d name source).1 = (Archive.written m name source).1 ∧
      Mirrors N k (Archive.written m name source).2 (Archive.written d name source).2 := by
  have hr := h.ready.written hp source
  have hm := Memory.allOrNothing m name source
  have hd := allOrNothing d name source
  generalize Archive.written m name source = x at hm
  generalize Archive.written d name source = y at hd hr
  cases hd
  case stored he hb  =>
    cases hm
    case stored _ ha   => exact ⟨rfl, h.agree.stores ha hb, hr⟩
    case refused ho ha =>
      obtain ⟨e, rfl, he'⟩ := ho.source_of_valid hp.valid
      rw [he] at he'
      cases he'
  case refused ho hb =>
    obtain ⟨e, rfl, he⟩ := ho.source_of_plain h.ready hp
    cases hm
    case stored he' _  =>
      rw [he] at he'
      cases he'
    case refused ho ha =>
      obtain ⟨e', rfl, he'⟩ := ho.source_of_valid hp.valid
      cases he.symm.trans he'
      exact ⟨rfl, h.agree.sameEntries ha hb, hr⟩

theorem copy (h : Mirrors N (1 + k) m d) {newName : String} (hn : Plain N newName) (name : String) :
    (Archive.copy d d name newName).value.1 = (Archive.copy m m name newName).value.1 ∧
      Mirrors N k (Archive.copy m m name newName).value.2
        (Archive.copy d d name newName).value.2 := by
  have hless : Mirrors N k m d := ⟨h.agree, h.ready.less (Nat.le_add_left ..)⟩
  rw [value_copy, value_copy, h.agree.stored]
  match stored? m name with
  | none               => exact ⟨rfl, hless⟩
  | some (.error e)    => exact ⟨rfl, hless⟩
  | some (.ok content) =>
    have ⟨hc, hm⟩ := h.written hn (.ofBytes content)
    exact ⟨congrArg (Completion.map fun _ => true) hc, hm⟩

theorem storeBatch (h : Mirrors N (1 + k) m d) (hn : Plain N (freshName m)) (batch : Bytes) :
    (Archive.storeBatch d batch).value.1 = (Archive.storeBatch m batch).value.1 ∧
      Mirrors N k (Archive.storeBatch m batch).value.2 (Archive.storeBatch d batch).value.2 := by
  rw [value_storeBatch, value_storeBatch, h.agree.freshName h.names]
  have ⟨hc, hm⟩ := h.written hn (.ofBytes batch)
  exact ⟨congrArg (Completion.map fun _ => freshName m) hc, hm⟩

theorem perform (h : Mirrors N (1 + k) m d) (call : Call) (hn : ∀ n ∈ call.about m, Plain N n) :
    (Archive.perform (prepare · false) d call).1 = (Archive.perform .ok m call).1 ∧
      Mirrors N k (Archive.perform .ok m call).2 (Archive.perform (prepare · false) d call).2 := by
  have hless : Mirrors N k m d := ⟨h.agree, h.ready.less (Nat.le_add_left ..)⟩
  cases call
  case write name source =>
    have ⟨hc, hm⟩ := h.written (hn name (by simp [Call.about])) source
    exact ⟨congrArg Reply.wrote hc, hm⟩
  case read name         =>
    exact ⟨congrArg Reply.content (h.read (hn name (by simp [Call.about]))), hless⟩
  case contains name     => exact ⟨congrArg Reply.contained (h.agree.contains name), hless⟩
  case names             => exact ⟨congrArg Reply.listed h.names, hless⟩
  case copy name newName =>
    have ⟨hc, hm⟩ := h.copy (hn newName (by simp [Call.about])) name
    exact ⟨congrArg Reply.copied hc, hm⟩
  case storeBatch batch  =>
    have ⟨hc, hm⟩ := h.storeBatch (hn _ (by simp [Call.about])) batch
    exact ⟨congrArg Reply.batched hc, hm⟩
  case reopen            =>
    rw [Archive.perform, prepare_self h.ready.shallow h.ready.root h.ready.area]
    exact ⟨rfl, hless⟩

theorem replies (calls : List Call) (h : Mirrors N calls.length m d)
    (hn : ∀ n ∈ about .ok m calls, Plain N n) :
    Archive.replies (prepare · false) d calls = Archive.replies .ok m calls := by
  induction calls generalizing m d
  case nil                => rfl
  case cons call calls hi =>
    rw [List.length_cons, Nat.add_comm] at h
    have ⟨hr, hm⟩ := h.perform call fun n hm => hn n (List.mem_append_left _ hm)
    exact List.cons_eq_cons.2 ⟨hr, hi hm fun n hm => hn n (List.mem_append_right _ hm)⟩

end Mirrors

theorem not_contains_of_no_files (h : ∀ p content, d.files.node? p ≠ some (.file content))
    (name : String) : Archive.contains d name = false := by
  cases he : entryPath name
  case error   => simp only [Archive.contains, Directory.contains, he]
  case ok path =>
    rw [contains_of_entryPath he, FileTree.isFile]
    cases hr : d.files.read path
    case error      => rfl
    case ok content =>
      obtain ⟨p, _, hn⟩ := FileTree.read_ok hr
      exact absurd hn (h p content)

theorem agree_of_no_files (h : ∀ p content, d.files.node? p ≠ some (.file content)) :
    Agree ({} : Memory) d where
  stored n := if_neg (by simp [not_contains_of_no_files h])
  names n  := by
    refine iff_of_false (fun hn => ?_) (by rw [Memory.mem_names_iff]; exact nofun)
    have ⟨content, hn⟩ := FileTree.mem_fileNames_iff.1 hn
    exact h [n] content hn

-- An archive that was opened where nothing was has no entries.
theorem Mirrors.of_vacant {d₀ : Directory} {deleteExisting : Bool}
    (h : prepare d₀ deleteExisting = .ok d)
    (hv : Vacant d₀.files ∨ deleteExisting = true ∧ (d₀.files.node? []).isSome)
    (ht : d₀.files.Shallow) :
    Mirrors (PlainName d₀.processId (d₀.staged + k)) k {} d where
  agree := by
    have ⟨_, _, _, hnode⟩ := prepare_vacant h hv
    refine agree_of_no_files fun p content hf => ?_
    rw [hnode] at hf
    split at hf
    all_goals cases hf
  ready := .of_vacant h hv ht (fun ha => ha.area rfl) fun _ hn => hn.room

end Directory

open Directory in
-- With plain names, both kinds of archive give the same replies to any calls, from the time on when
-- they are empty.
theorem replies_eq_of_plain (d₀ d : Directory) (deleteExisting : Bool)
    (h : prepare d₀ deleteExisting = .ok d)
    (hv : Vacant d₀.files ∨ deleteExisting = true ∧ (d₀.files.node? []).isSome)
    (ht : d₀.files.Shallow) (calls : List Call) (hp : ∀ name ∈ about .ok ({} : Memory) calls,
      PlainName d₀.processId (d₀.staged + calls.length) name) :
    replies (prepare · false) d calls = replies .ok ({} : Memory) calls := by
  refine (Mirrors.of_vacant h hv ht).replies calls fun name hn => (hp name hn).plain ?_
  match calls with
  | []     => cases hn
  | _ :: _ => exact Nat.add_pos_right _ (Nat.zero_lt_succ _)

end

open Directory in
-- A write that fails, a copy and a batch, with the directory opened once more in between.
theorem replies_eq_of_plain_reopened :
    let calls : List Call :=
      [.write "a" { answers := [.data [1], .interrupted, .data [2]] },
        .write "b" { answers := [.data [1], .failure (.other "gone")] }, .read "b",
        .copy "a" "c", .reopen, .storeBatch [3], .names]
    ∃ d, prepare { processId := 7 } false = .ok d ∧
      about .ok ({} : Memory) calls = ["a", "b", "b", "a", "c", "2.bin"] ∧
      replies (prepare · false) d calls = replies .ok ({} : Memory) calls := by
  intro calls
  have hvalid : ∀ name ∈ ["a", "b", "c"], Name.validate name = .ok () := by decide
  simp only [List.forall_mem_cons] at hvalid
  have hn : about .ok ({} : Memory) calls = ["a", "b", "b", "a", "c", "2.bin"] := by
    simp [calls, about, Call.about, perform, value_copy, Memory.written_eq, hvalid, stored?,
      Archive.contains, Archive.read, Memory.read, Source.ending, Source.Answer.outcome,
      Source.Answer.final?, Source.Answer.Final, freshName, Archive.names, Table.keys, Table.insert,
      Table.erase, Table.filterKeys]
    decide +kernel
  obtain ⟨d, hd⟩ : ∃ d, prepare { processId := 7 } false = .ok d := ⟨_, rfl⟩
  refine ⟨d, hd, hn, replies_eq_of_plain _ d false hd (.inl (vacant_empty 0)) (by decide) calls ?_⟩
  rw [hn]
  decide +kernel

end BitPacking.Archive
