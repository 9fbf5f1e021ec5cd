import BitPacking.Proofs.Archive.Directory.Discipline
import BitPacking.Proofs.Archive.Write
import BitPacking.Proofs.Lz4.Frame

namespace BitPacking.Archive.Directory

open FileTree (Place place)

variable {d : Directory} {name : String} {source : Source} {staging entry : List String} {p : Place}

theorem locate_staging (hp : d.files.placeForFile staging = .ok p) (content : Bytes) :
    (d.files.set p (.file content)).locate staging = .ok p :=
  have ⟨hl, _, hd⟩ := FileTree.placeForFile_eq_ok_iff.1 hp
  FileTree.locate_mono (FileTree.lead_set ..) (fun _ => (FileTree.directory_set hd content).2) hl

theorem append_staging (hp : d.files.placeForFile staging = .ok p) (content bytes : Bytes) :
    ({ d with files := d.files.set p (.file content) } : Directory).append staging bytes =
      { d with files := d.files.set p (.file (content ++ bytes)) } := by
  rw [append]
  split
  case isTrue h  => rw [List.isEmpty_iff.1 h, List.append_nil]
  case isFalse h =>
    rw [FileTree.append_eq_set (locate_staging hp content) (FileTree.node?_set_self ..),
      FileTree.set_set]

theorem remove_staging (hp : d.files.placeForFile staging = .ok p) (content : Bytes) :
    (d.files.set p (.file content)).remove staging =
      .ok (d.files.erase p) := by
  rw [FileTree.remove_eq_ok (locate_staging hp content) (FileTree.node?_set_self ..),
    FileTree.erase_set]

theorem rename_staging {files : FileTree} {content : Bytes} (hn : entryPath name = .ok entry)
    (hp : d.files.placeForFile staging = .ok p)
    (h : (d.files.set p (.file content)).rename staging entry = .ok files) :
    entry = [name] ∧ d.files.placeForFile [name] = .ok [name] ∧
      files = (d.files.erase p).set [name] (.file content) := by
  obtain ⟨s, p', content', rfl, hl, hn', hd, rfl⟩ :=
    FileTree.rename_ok (entry_of_entryPath hn) h
  cases hl.symm.trans (locate_staging hp content)
  rw [FileTree.node?_set_self] at hn'
  cases hn'
  cases Name.eq_of_segments (entryPath_ok hn).right.right.symm
  have hd' := (FileTree.placeForFile_eq_ok_iff.1 hp).right.right
  have hkeep (q : Place) := FileTree.directory_set (q := q) hd' content
  exact ⟨rfl, (FileTree.placeForFile_congr (FileTree.lead_set ..) hkeep).1 hd,
    by rw [FileTree.erase_set]⟩

theorem place_of_placeForFile (hn : entryPath name = .ok entry)
    (hp : d.files.placeForFile (d.stagingPath name) = .ok p) : p = place (d.stagingPath name) :=
  FileTree.locate_down (d.down_stagingPath (entryPath_ok hn).left)
    (FileTree.placeForFile_eq_ok_iff.1 hp).left

theorem numbered_of_placeForFile (hn : entryPath name = .ok entry)
    (hp : d.files.placeForFile (d.stagingPath name) = .ok p) : Numbered d.processId d.staged p := by
  rw [place_of_placeForFile hn hp]
  exact d.numbered_stagingPath name

-- No staging file has a number that is yet to be given out. What other processes are staging does
-- not matter, as they have numbers of their own.
def Fresh (d : Directory) : Prop :=
  ∀ p j content, Numbered d.processId j p → d.files.node? p = some (.file content) → j < d.staged

-- Trees with the same content of the staging area.
def SameStaging (t t' : FileTree) : Prop :=
  ∀ q : Place, q.head? = some stagingArea → t'.node? q = t.node? q

-- A tree whose staging area lacks no more than a file that was in the place where a write of some
-- name puts its own.
def OnlyClears (d : Directory) (name : String) (t : FileTree) : Prop :=
  ∀ q : Place, q.head? = some stagingArea → t.node? q = d.files.node? q ∨
    q = place (d.stagingPath name) ∧ (∃ content, d.files.node? q = some (.file content)) ∧
      t.node? q = none

theorem Numbered.head {processId staged : Nat} (h : Numbered processId staged p) :
    p.head? = some stagingArea := by
  obtain ⟨front, last, rfl⟩ := h
  rfl

theorem onlyClears_erase (hp : p = place (d.stagingPath name))
    (hd : d.files.node? p ≠ some .directory) : d.OnlyClears name (d.files.erase p) := by
  intro q _
  rw [FileTree.node?_erase]
  split
  case isFalse   => exact .inl rfl
  case isTrue hq =>
    subst hq
    match hx : d.files.node? q with
    | none                 => exact .inl rfl
    | some .directory      => exact absurd hx hd
    | some (.file content) => exact .inr ⟨hp, ⟨content, rfl⟩, rfl⟩

theorem Fresh.sameStaging {t : FileTree} (hf : d.Fresh) (h : d.OnlyClears name t) :
    SameStaging d.files t := by
  intro q hq
  rcases h q hq with h | ⟨rfl, ⟨content, hc⟩, _⟩
  · exact h
  · exact absurd (hf _ _ content (d.numbered_stagingPath name) hc) (Nat.lt_irrefl _)

theorem fresh_of_prepare {processId lead : Nat} {deleteExisting : Bool}
    (h : prepare { files := { lead }, processId } deleteExisting = .ok d) : d.Fresh := by
  have ⟨_, _, _, hnode⟩ := prepare_vacant h (.inl (vacant_empty lead))
  intro p j content hj hc
  have hp : ¬(p = [] ∨ p = [stagingArea]) := by
    have hlen := hj.below
    rintro (rfl | rfl)
    all_goals simp at hlen
  rw [hnode, if_neg hp] at hc
  cases hc

variable [Compression]

inductive Wrote (d : Directory) (name : String) (source : Source) :
    Completion Nat × Directory → Prop
  | invalid {e : Error} (hn : entryPath name = .error e) :
      Wrote d name source (.returned (.error e), d)
  | unstaged {entry : List String} {e : IoError} {files : FileTree}
      (hn : entryPath name = .ok entry) (hc : d.files.create (d.stagingPath name) = .error e)
      (hf : files = d.files ∨ d.files.remove (d.stagingPath name) = .ok files) :
      Wrote d name source
        (.returned (.error (.io e)), { d with files, staged := d.staged + 1 })
  | failed {entry : List String} {e : IoError} {p : Place} (hn : entryPath name = .ok entry)
      (hp : d.files.placeForFile (d.stagingPath name) = .ok p) (he : source.ending = .error e) :
      Wrote d name source (.returned (.error (.io e)),
        { d with files := d.files.erase p, staged := d.staged + 1 })
  | unplaced {entry : List String} {e : IoError} {p : Place} (hn : entryPath name = .ok entry)
      (hp : d.files.placeForFile (d.stagingPath name) = .ok p) (he : source.ending = .ok ())
      (hr : (d.files.set p (.file (Seal.ofSource source))).rename
        (d.stagingPath name) entry = .error e) :
      Wrote d name source (.returned (.error (.io e)),
        { d with files := d.files.erase p, staged := d.staged + 1 })
  | stored {p : Place} (hn : entryPath name = .ok [name])
      (hp : d.files.placeForFile (d.stagingPath name) = .ok p) (he : source.ending = .ok ())
      (hd : d.files.placeForFile [name] = .ok [name]) :
      Wrote d name source (.returned (.ok source.supplied.length),
        { d with
          files  := (d.files.erase p).set [name]
            (.file (Seal.ofSource source))
          staged := d.staged + 1 })

def Sealing (d : Directory) (entry staging : List String) (p : Place) (got : List Bytes)
    (d' : Directory) (w : Write) : Prop :=
  d' = { d with files := d.files.set p (.file (Seal.after got).1) } ∧
    w = .sealing entry staging (Seal.after got).2

theorem Sealing.data {got : List Bytes} {d' : Directory} {w : Write}
    (hp : d.files.placeForFile staging = .ok p) (h : Sealing d entry staging p got d' w)
    (bytes : Bytes) : Sealing d entry staging p (got ++ [bytes]) (d'.feed w (.data bytes)).1
      (d'.feed w (.data bytes)).2 := by
  obtain ⟨rfl, rfl⟩ := h
  refine ⟨?_, ?_⟩
  · simp only [feed, append_staging hp, Seal.after_append]
  · simp only [feed, Seal.after_append]

theorem settle_clearing (hp : d.files.placeForFile staging = .ok p) (content : Bytes) (e : Error)
    (source : Source) :
    settle ({ d with files := d.files.set p (.file content) } : Directory)
      (Write.clearing staging e) source =
        (.returned (.error e), { d with files := d.files.erase p }, source) := by
  rw [settle_turn rfl]
  simp only [Archive.turn, turn, remove_staging hp, Logged.value_pure]
  exact settle_done rfl

theorem wrote_sealing (hn : entryPath name = .ok entry)
    (hp : d.files.placeForFile (d.stagingPath name) = .ok p) (source : Source) :
    let x := settle
      ({ d with files := d.files.set p (.file []), staged := d.staged + 1 } : Directory)
      (Write.sealing entry (d.stagingPath name) {}) source
    Wrote d name source (x.1, x.2.1) := by
  -- The archive as it has counted the staging file, and holds nothing else of the write.
  let d₁ : Directory := { d with staged := d.staged + 1 }
  have hp₁ : d₁.files.placeForFile (d.stagingPath name) = .ok p := hp
  have hstart : Sealing d₁ entry (d.stagingPath name) p []
      { d with files := d.files.set p (.file []), staged := d.staged + 1 }
      (.sealing entry (d.stagingPath name) {}) := ⟨rfl, rfl⟩
  obtain ⟨_, _, source', x, ⟨rfl, rfl⟩, hx, he, hset⟩ :=
    settle_reading (R := Sealing d₁ entry (d.stagingPath name) p) (n := Bytes.blockSize)
      (by decide) (fun h => by obtain ⟨_, rfl⟩ := h; rfl) (fun bytes h => h.data hp₁ bytes)
      (fun h => by obtain ⟨_, rfl⟩ := h; rfl) hstart source
  rw [hset, List.nil_append]
  cases x
  case failure e  =>
    simp only [Archive.feed, feed]
    rw [settle_clearing hp₁]
    exact .failed hn hp he
  case endOfInput =>
    simp only [Archive.feed, feed, append_staging hp₁, Seal.length_after,
      Source.flatten_blocks (show 0 < Bytes.blockSize by decide)]
    rw [settle_turn rfl]
    simp only [Archive.turn, turn]
    split
    case h_1 files hr =>
      obtain ⟨rfl, hd, rfl⟩ := rename_staging hn hp₁ hr
      rw [Logged.value_pure, settle_done rfl]
      exact .stored hn hp he hd
    case h_2 e hr     =>
      rw [Logged.value_pure, settle_clearing hp₁]
      exact .unplaced hn hp he hr
  all_goals cases hx

theorem wrote (d : Directory) (name : String) (source : Source) :
    Wrote d name source (written d name source) := by
  have hbegin : request (σ := Directory) (begin name) = .turn := rfl
  rw [written, Archive.write, value_writeOn, settle_turn hbegin]
  simp only [begin, Archive.turn, turn]
  split
  case h_2 e hn     => rw [Logged.value_pure, settle_done rfl]; exact .invalid hn
  case h_1 entry hn =>
    rw [Logged.value_pure, settle_turn rfl]
    simp only [Archive.turn, turn]
    split
    case h_1 files hc =>
      obtain ⟨p, hp, rfl⟩ := FileTree.create_ok hc
      rw [Logged.value_pure]
      exact wrote_sealing hn hp source
    case h_2 e hc     =>
      rw [Logged.value_pure, settle_turn rfl]
      simp only [Archive.turn, turn]
      split
      case h_1 files hf => rw [Logged.value_pure, settle_done rfl]; exact .unstaged hn hc (.inr hf)
      case h_2          => rw [settle_done rfl]; exact .unstaged hn hc (.inl rfl)

inductive Obstacle (d : Directory) (name : String) (source : Source) : Error → Prop
  | name {e : Error} (h : entryPath name = .error e) : Obstacle d name source e
  | staging {e : IoError} (h : d.files.create (d.stagingPath name) = .error e) :
      Obstacle d name source (.io e)
  | source {e : IoError} (h : source.ending = .error e) : Obstacle d name source (.io e)
  | placing {entry : List String} {e : IoError} {p : Place}
      (hn : entryPath name = .ok entry)
      (hp : d.files.placeForFile (d.stagingPath name) = .ok p)
      (h : (d.files.set p (.file (Seal.ofSource source))).rename (d.stagingPath name)
        entry = .error e) : Obstacle d name source (.io e)

theorem stores_placed (hn : entryPath name = .ok [name])
    (hp : d.files.placeForFile (d.stagingPath name) = .ok p)
    (hd : d.files.placeForFile [name] = .ok [name]) (sealed : Bytes) (staged : Nat) :
    Stores d name (Seal.contentOf name sealed)
      { d with files := (d.files.erase p).set [name] (.file sealed), staged } := by
  have hlen := (numbered_of_placeForFile hn hp).below
  have ⟨_, _, hdp⟩ := FileTree.placeForFile_eq_ok_iff.1 hp
  have ⟨hl, _, hdn⟩ := FileTree.placeForFile_eq_ok_iff.1 hd
  have htop {q : Place} (hq : q.length ≤ 1) : q ≠ p := by
    rintro rfl
    omega
  let files := (d.files.erase p).set [name] (.file sealed)
  -- Neither the staging file nor the entry is in the place of a directory.
  have hkeep (q : Place) (hq : d.files.node? q = some .directory) :
      files.node? q = some .directory := by
    rw [FileTree.directory_set, FileTree.directory_erase hdp, hq]
    rwa [ne_eq, FileTree.directory_erase hdp]
  have hnode {q : Place} (hq : q.length ≤ 1) :
      files.node? q = if q = [name] then some (.file sealed) else d.files.node? q := by
    rw [FileTree.node?_set, FileTree.node?_erase, if_neg (htop hq)]
  have hlead : files.lead = d.files.lead := rfl
  have hstored := stored?_file (d := { d with files, staged }) hn
    (FileTree.locate_mono hlead hkeep hl) (by rw [hnode (by simp), if_pos rfl])
  constructor
  case contains => exact contains_of_stored? hstored
  case read     => exact read_of_stored? hstored
  case others   =>
    intro n hne
    refine stored?_top hlead ?_ ?_
    · rw [hnode (by simp), if_neg nofun]
    · rw [hnode (by simp), if_neg (by simpa using hne)]
  case names    =>
    intro n
    show n ∈ FileTree.fileNames _ ↔ n = name ∨ n ∈ FileTree.fileNames _
    rw [FileTree.mem_fileNames_iff, FileTree.mem_fileNames_iff, hnode (by simp)]
    by_cases h : n = name <;> simp [h]

theorem allOrNothing (d : Directory) (name : String) (source : Source) :
    AllOrNothing (Obstacle d name source) d name source (Seal.contentOf name (Seal.ofSource source))
      (written d name source) := by
  have h := wrote d name source
  generalize written d name source = x at h
  have htop {entry : List String} {p : Place} (hn : entryPath name = .ok entry)
      (hp : d.files.placeForFile (d.stagingPath name) = .ok p) :
      FileTree.SameTop d.files (d.files.erase p) :=
    FileTree.sameTop_erase (numbered_of_placeForFile hn hp).below d.files
  cases h
  case invalid hn           => exact .refused (.name hn) (.refl d)
  case unstaged hn hc hf    =>
    refine .refused (.staging hc) (sameEntries ?_)
    rcases hf with rfl | hf
    · exact .refl _
    · exact FileTree.sameTop_remove (d.below_stagingPath (entryPath_ok hn).left) hf
  case failed hn hp he      => exact .refused (.source he) (sameEntries (htop hn hp))
  case unplaced hn hp he hr => exact .refused (.placing hn hp hr) (sameEntries (htop hn hp))
  case stored p hn hp he hd => exact .stored he (stores_placed hn hp hd _ _)

theorem allOrNothing_supplied [Compression.Lossless] (d : Directory) (name : String)
    (source : Source) : AllOrNothing (Obstacle d name source) d name source (.ok source.supplied)
      (written d name source) := by
  rw [← Seal.contentOf_ofSource name source]
  exact d.allOrNothing name source

namespace Wrote

variable {x : Completion Nat × Directory}

-- What a write has put into the staging area is gone when it is over.
theorem onlyClears (h : Wrote d name source x) : d.OnlyClears name x.2.files := by
  have herase {entry : List String} {p : Place} (hn : entryPath name = .ok entry)
      (hp : d.files.placeForFile (d.stagingPath name) = .ok p) :
      d.OnlyClears name (d.files.erase p) :=
    onlyClears_erase (place_of_placeForFile hn hp)
      (FileTree.placeForFile_eq_ok_iff.1 hp).right.right
  cases h
  case invalid              => exact fun _ _ => .inl rfl
  case unstaged hn hc hr    =>
    rcases hr with rfl | hr
    · exact fun _ _ => .inl rfl
    · obtain ⟨q, content, hl, hq, rfl⟩ := FileTree.remove_ok hr
      have hplace := FileTree.locate_down (d.down_stagingPath (entryPath_ok hn).left) hl
      exact onlyClears_erase hplace (by simp [hq])
  case failed hn hp he      => exact herase hn hp
  case unplaced hn hp he hr => exact herase hn hp
  case stored p hn hp he hd =>
    intro q hq
    have hne : q ≠ [name] := by
      rintro rfl
      exact (entryPath_ok hn).right.left (Option.some.inj hq)
    rw [FileTree.node?_set, if_neg hne]
    exact herase hn hp q hq

-- Whatever was in the place of the staging file is gone with it.
theorem cleared (h : Wrote d name source x) (hn : entryPath name = .ok entry)
    (hp : d.files.placeForFile (d.stagingPath name) = .ok p) : x.2.files.node? p = none := by
  have hnone {p' : Place} (hp' : d.files.placeForFile (d.stagingPath name) = .ok p') :
      (d.files.erase p').node? p = none := by
    cases hp.symm.trans hp'
    rw [FileTree.node?_erase, if_pos rfl]
  cases h
  case invalid hn'       => cases hn.symm.trans hn'
  case unstaged hc _     => rw [FileTree.create, hp] at hc; cases hc
  case failed hp' _      => exact hnone hp'
  case unplaced hp' _ _  => exact hnone hp'
  case stored hp' _ _    =>
    have hlen := (numbered_of_placeForFile hn hp).below
    have hne : p ≠ [name] := by
      rintro rfl
      simp at hlen
    rw [FileTree.node?_set, if_neg hne]
    exact hnone hp'

theorem numbers (h : Wrote d name source x) :
    x.2.processId = d.processId ∧ d.staged ≤ x.2.staged := by
  cases h
  case invalid => exact ⟨rfl, Nat.le_refl _⟩
  all_goals exact ⟨rfl, Nat.le_succ _⟩

theorem fresh (h : Wrote d name source x) (hf : d.Fresh) : x.2.Fresh := by
  intro p j content hj hc
  have ⟨hpid, hle⟩ := h.numbers
  rw [hpid] at hj
  rw [hf.sameStaging h.onlyClears p hj.head] at hc
  exact Nat.lt_of_lt_of_le (hf p j content hj hc) hle

end Wrote

theorem Fresh.afterWrites (hf : d.Fresh) (writes : List (String × Source)) :
    (afterWrites d writes).Fresh := by
  induction writes generalizing d
  case nil          => exact hf
  case cons w ws hi => exact hi ((wrote d w.1 w.2).fresh hf)

end BitPacking.Archive.Directory

namespace BitPacking.Archive

section Lossless

variable [Compression] [Compression.Lossless]

-- Whatever was written before, a write stores all of its content or changes no entry, and it leaves
-- the staging area of a directory as it was, but for a file that was in the place of its own.
theorem allOrNothing_of_writes (m : Memory) (d : Directory) (writes : List (String × Source))
    (name : String) (source : Source) :
    AllOrNothing (Memory.Obstacle name source) (afterWrites m writes) name source
      (.ok source.supplied) (written (afterWrites m writes) name source) ∧
    AllOrNothing (Directory.Obstacle (afterWrites d writes) name source) (afterWrites d writes) name
      source (.ok source.supplied) (written (afterWrites d writes) name source) ∧
    (afterWrites d writes).OnlyClears name (written (afterWrites d writes) name source).2.files ∧
    (d.Fresh → Directory.SameStaging (afterWrites d writes).files
      (written (afterWrites d writes) name source).2.files) := by
  have hc := (Directory.wrote (afterWrites d writes) name source).onlyClears
  exact ⟨Memory.allOrNothing_supplied _ name source, Directory.allOrNothing_supplied _ name source,
    hc, fun hf => (hf.afterWrites writes).sameStaging hc⟩

end Lossless

-- A write over an entry, in pieces, after a write that its source broke off.
theorem allOrNothing_of_writes_overwrite :
    let writes : List (String × Source) := [("y", .ofBytes [1]),
      ("x", { answers := [.data [7], .failure (.other "gone")] })]
    let source : Source :=
      { answers := [.data [2], .interrupted, .data [3], .endOfInput, .data [4]] }
    ∃ d, Directory.prepare { processId := 7 } false = .ok d ∧ d.Fresh ∧
      AllOrNothing (Memory.Obstacle "y" source) (afterWrites ({} : Memory) writes) "y" source
        (.ok [2, 3]) (written (afterWrites ({} : Memory) writes) "y" source) ∧
      AllOrNothing (Directory.Obstacle (afterWrites d writes) "y" source) (afterWrites d writes)
        "y" source (.ok [2, 3]) (written (afterWrites d writes) "y" source) ∧
      Directory.SameStaging (afterWrites d writes).files
        (written (afterWrites d writes) "y" source).2.files := by
  intro writes source
  obtain ⟨d, hd⟩ : ∃ d, Directory.prepare { processId := 7 } false = .ok d := ⟨_, rfl⟩
  have hf := Directory.fresh_of_prepare hd
  have h := allOrNothing_of_writes {} d writes "y" source
  exact ⟨d, hd, hf, h.left, h.right.left, h.right.right.right hf⟩

-- A file that an earlier process of the same number has left in the staging area does not outlive
-- a write of the same name.
theorem not_sameStaging_of_leftover :
    let files : FileTree := { nodes := (((({} : Table FileTree.Place FileTree.Node).insert []
      .directory).insert [Directory.stagingArea] .directory).insert
        [Directory.stagingArea, "x.7.0"] (.file [1])) }
    let d : Directory := { files, processId := 7 }
    Directory.prepare d false = .ok d ∧
      ¬Directory.SameStaging d.files (written d "x" (.ofBytes [2])).2.files := by
  intro files d
  have hp : d.files.placeForFile (d.stagingPath "x") = .ok [Directory.stagingArea, "x.7.0"] := by
    decide +kernel
  have he : Directory.entryPath "x" = .ok ["x"] := by decide +kernel
  have hgone := (Directory.wrote d "x" (.ofBytes [2])).cleared he hp
  refine ⟨by rfl, fun h => ?_⟩
  have hl := (h [Directory.stagingArea, "x.7.0"] rfl).symm.trans hgone
  exact absurd hl (by decide +kernel)

end BitPacking.Archive
