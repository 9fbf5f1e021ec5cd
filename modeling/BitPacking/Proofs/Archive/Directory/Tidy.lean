import BitPacking.Proofs.Archive.Deposits
import BitPacking.Proofs.Archive.Directory.Write
import Mathlib.Data.String.Basic

namespace BitPacking.Archive

namespace Name

variable {n k : Nat} {c : Char}

theorem utf8Size_of_isDigit (h : c.isDigit = true) : c.utf8Size = 1 := by
  rw [Char.utf8Size_eq_one_iff, UInt32.le_iff_toNat_le]
  simp only [Char.isDigit, Bool.and_eq_true, decide_eq_true_eq, ge_iff_le,
    UInt32.le_iff_toNat_le] at h
  exact h.right.trans (by decide)

theorem utf8Len_of_digits {cs : List Char} (h : ∀ c ∈ cs, c.isDigit = true) :
    String.utf8Len cs = cs.length := by
  induction cs
  case nil          => rfl
  case cons c cs hi =>
    rw [List.forall_mem_cons] at h
    rw [String.utf8Len_cons, hi h.right, utf8Size_of_isDigit h.left, List.length_cons]

theorem utf8ByteSize_toString_le (hk : 0 < k) (h : n < 10 ^ k) : (toString n).utf8ByteSize ≤ k := by
  rw [← String.utf8Len_toList, utf8Len_of_digits fun _ => isDigit_of_mem_toString,
    String.length_toList]
  exact (Nat.length_repr_le_iff hk).2 h

end Name

section

variable {i : Nat} {name : String}

theorem ne_batchName (h : name.toList.any Char.isDigit = false) (i : Nat) : name ≠ batchName i := by
  rintro rfl
  obtain ⟨c, hm, hc⟩ := exists_digit_batchName i
  exact List.any_eq_false.1 h c hm hc

theorem utf8ByteSize_batchName_le (h : i < 2 ^ 64) : (batchName i).utf8ByteSize ≤ 24 := by
  have hb : batchName i = toString i ++ ".bin" := by
    rw [← String.toList_inj, toList_batchName, String.toList_append]
  have hi := Name.utf8ByteSize_toString_le (k := 20) (by decide) (h.trans (by decide))
  have hs : ".bin".utf8ByteSize = 4 := by decide
  rw [hb, String.utf8ByteSize_append]
  omega

end

namespace Directory

open FileTree (Entry Place Proper)

variable {N : String → Prop} {d : Directory} {name : String} {source : Source} {e : Error}
variable {x : Completion Nat × Directory} {i j k : Nat}

theorem utf8ByteSize_suffix_le {processId : Nat} (hp : processId < 2 ^ 32) (hj : j < 2 ^ 64) :
    (suffix processId j).utf8ByteSize ≤ 32 := by
  have hp := Name.utf8ByteSize_toString_le (k := 10) (by decide) (hp.trans (by decide))
  have hj := Name.utf8ByteSize_toString_le (k := 20) (by decide) (hj.trans (by decide))
  have hs : ".".utf8ByteSize = 1 := by decide
  simp only [suffix, String.utf8ByteSize_append]
  omega

theorem plain_batchName (h : i < 2 ^ 64) : Plain (fun _ => True) (batchName i) where
  mem    := trivial
  valid  := Deposit.validate_batchName i
  slash  := fun h => absurd (of_mem_batchName h) (by decide)
  area   := (ne_batchName (by decide) i).symm
  proper := by
    obtain ⟨c, hm, hc⟩ := exists_digit_batchName i
    refine ⟨Name.not_idle_of_digit hm hc, ?_, fun h => absurd (of_mem_batchName h) (by decide)⟩
    exact (utf8ByteSize_batchName_le h).trans (by decide)

-- A directory with nothing in it but entries and the staging area, where no directory is in the way
-- of the staging files that are yet to come.
structure Tidy (d : Directory) : Prop where
  root    : d.files.node? [] = some .directory
  area    : d.files.node? [stagingArea] = some .directory
  entries : ∀ name ≠ stagingArea, d.files.node? [name] ≠ some .directory
  free    : ∀ p j, Numbered d.processId j p → d.staged ≤ j → d.files.node? p ≠ some .directory

-- Numbers that the machine can hold, also after some more entries, and room for files in a path.
structure Roomy (k : Nat) (d : Directory) : Prop where
  shallow   : d.files.Shallow
  processId : d.processId < 2 ^ 32
  staged    : d.staged + k ≤ 2 ^ 64
  names     : d.files.fileNames.length + k ≤ 2 ^ 63

-- An archive that was opened where nothing was is tidy.
theorem Tidy.of_vacant {d₀ : Directory} {deleteExisting : Bool}
    (h : prepare d₀ deleteExisting = .ok d)
    (hv : Vacant d₀.files ∨ deleteExisting = true ∧ (d₀.files.node? []).isSome) : d.Tidy := by
  obtain ⟨-, -, -, hnode⟩ := prepare_vacant h hv
  have hnone {p : Place} (hp : ¬(p = [] ∨ p = [stagingArea])) :
      d.files.node? p ≠ some .directory := by
    rw [hnode, if_neg hp]
    simp
  constructor
  case root    => rw [hnode, if_pos (.inl rfl)]
  case area    => rw [hnode, if_pos (.inr rfl)]
  case entries => exact fun n hn => hnone (by simpa using hn)
  case free    =>
    intro p j hp _
    refine hnone ?_
    have hlen := hp.below
    rintro (rfl | rfl)
    all_goals simp at hlen

theorem fileNames_of_vacant {d₀ : Directory} {deleteExisting : Bool}
    (h : prepare d₀ deleteExisting = .ok d)
    (hv : Vacant d₀.files ∨ deleteExisting = true ∧ (d₀.files.node? []).isSome) :
    d.files.fileNames = [] := by
  obtain ⟨-, -, -, hnode⟩ := prepare_vacant h hv
  refine List.eq_nil_iff_forall_not_mem.2 fun n hn => ?_
  obtain ⟨content, hn⟩ := FileTree.mem_fileNames_iff.1 hn
  rw [hnode] at hn
  split at hn
  all_goals cases hn

theorem Tidy.not_directory_staging (h : d.Tidy) (name : String) :
    d.files.node? (staging d.processId name d.staged) ≠ some .directory :=
  h.free _ d.staged ⟨[], name, rfl⟩ (Nat.le_refl _)

theorem Roomy.less (h : d.Roomy (k + 1)) : d.Roomy k :=
  ⟨h.shallow, h.processId, Nat.le_of_succ_le h.staged, Nat.le_of_succ_le h.names⟩

variable [Compression]

theorem nodup_names (d : Directory) : (names d).Nodup :=
  (List.mergeSort_perm ..).nodup_iff.2 d.files.nodup_topNames

theorem mem_names_of_contains (h : Archive.contains d name = true) : name ∈ names d := by
  rcases he : entryPath name with e | path
  case error => simp [Archive.contains, Directory.contains, he] at h
  case ok    =>
    have hc : d.files.isFile path = true := by rwa [← contains_of_entryPath he]
    have hentry := entry_of_entryPath he
    have hsegments := (entryPath_ok he).right.right
    obtain ⟨s, rest, rfl, hi, -⟩ := id hentry
    rcases rest with _ | ⟨r, rest⟩
    case cons => rw [hentry.not_isFile] at hc; cases hc
    case nil  =>
      cases Name.eq_of_segments hsegments.symm
      rw [FileTree.isFile] at hc
      rcases hr : d.files.read [name] with e | content
      case error => rw [hr] at hc; cases hc
      case ok    =>
        obtain ⟨p, hl, hn⟩ := FileTree.read_ok hr
        have hp : p = [name] := by
          rw [FileTree.locate_down hentry.down hl, FileTree.place,
            List.filter_cons_of_pos (by simpa using hi)]
          rfl
        exact FileTree.mem_fileNames_iff.2 ⟨content, hp ▸ hn⟩

theorem Wrote.directories (h : Wrote d name source x) (q : Place) :
    x.2.files.node? q = some .directory ↔ d.files.node? q = some .directory := by
  have herase {p : Place} (hp : d.files.placeForFile (d.stagingPath name) = .ok p) (q : Place) :
      (d.files.erase p).node? q = some .directory ↔
        d.files.node? q = some .directory :=
    FileTree.directory_erase (FileTree.placeForFile_eq_ok_iff.1 hp).right.right
  cases h
  case invalid              => rfl
  case unstaged hn hc hr    =>
    rcases hr with rfl | hr
    · rfl
    · obtain ⟨p, content, -, hp, rfl⟩ := FileTree.remove_ok hr
      exact FileTree.directory_erase (by simp [hp])
  case failed hn hp he      => exact herase hp q
  case unplaced hn hp he hr => exact herase hp q
  case stored p hn hp he hd =>
    have hd := (FileTree.placeForFile_eq_ok_iff.1 hd).right.right
    exact (FileTree.directory_set ((herase hp [name]).not.2 hd) _).trans (herase hp q)

theorem Wrote.lead (h : Wrote d name source x) : x.2.files.lead = d.files.lead := by
  cases h
  case unstaged hr =>
    rcases hr with rfl | hr
    · rfl
    · obtain ⟨p, content, -, -, rfl⟩ := FileTree.remove_ok hr
      rfl
  all_goals rfl

theorem Wrote.staged_le (h : Wrote d name source x) : x.2.staged ≤ d.staged + 1 := by
  cases h
  case invalid => exact Nat.le_succ _
  all_goals exact Nat.le_refl _

theorem Tidy.written (h : d.Tidy) (name : String) (source : Source) :
    Tidy (Archive.written d name source).2 := by
  have hw := wrote d name source
  have hdir := hw.directories
  obtain ⟨hpid, hst⟩ := hw.numbers
  constructor
  case root    => exact (hdir _).2 h.root
  case area    => exact (hdir _).2 h.area
  case entries => exact fun n hn => (hdir _).not.2 (h.entries n hn)
  case free    => exact fun p j hp hj => (hdir _).not.2 (h.free p j (hpid ▸ hp) (hst.trans hj))

theorem length_names_written_le (d : Directory) (name : String) (source : Source) :
    (names (written d name source).2).length ≤ (names d).length + 1 := by
  have h := d.allOrNothing name source
  generalize written d name source = x at h
  cases h
  case refused hs     => rw [hs.names]; exact Nat.le_succ _
  case stored d' _ hs =>
    have hsub : names d' ⊆ name :: names d := fun n hn => List.mem_cons.2 ((hs.names n).1 hn)
    exact (d'.nodup_names.subperm hsub).length_le

theorem Roomy.written (h : d.Roomy (k + 1)) (name : String) (source : Source) :
    Roomy k (Archive.written d name source).2 := by
  have hw := wrote d name source
  have hs := hw.staged_le
  have hn := d.length_names_written_le name source
  have hs' := h.staged
  have hn' : (Archive.names d).length + (k + 1) ≤ 2 ^ 63 := h.names
  have hl : (Archive.names (Archive.written d name source).2).length + k ≤ 2 ^ 63 := by omega
  refine ⟨?_, hw.numbers.left ▸ h.processId, by omega, hl⟩
  rw [FileTree.Shallow, hw.lead]
  exact h.shallow

-- Where the name of the staging file is not too long, it takes a source that fails to keep an entry
-- from being stored.
theorem Tidy.source_of_obstacle (ht : d.Tidy) (hsh : d.files.Shallow) (hp : Plain N name)
    (hs : (name ++ suffix d.processId d.staged).utf8ByteSize ≤ FileTree.nameLimit)
    (h : Obstacle d name source e) : ∃ e', e = .io e' ∧ source.ending = .error e' := by
  have hstaging := stagingPath_of_not_mem (d := d) hp.slash
  have hb := hp.inside hsh ht.root ht.area hs
  cases h
  case name hn             => rw [hp.entryPath] at hn; cases hn
  case source e he         => exact ⟨e, rfl, he⟩
  case staging e hc        =>
    rw [hstaging, staging, hb.create (ht.not_directory_staging name)] at hc
    cases hc
  case placing p hn hpl he =>
    have hl := (FileTree.placeForFile_eq_ok_iff.1 hpl).left
    rw [hstaging] at hl he
    cases hl.symm.trans hb.locate
    cases hn.symm.trans hp.entryPath
    let files := d.files.set (staging d.processId name d.staged)
      (.file (Seal.ofSource source))
    have hdir (q : Place) : files.node? q = some .directory ↔ d.files.node? q = some .directory :=
      FileTree.directory_set (ht.not_directory_staging name) _
    have hb' := hp.inside (t := files) hsh ((hdir _).2 ht.root) ((hdir _).2 ht.area) hs
    have hf := hb'.rename hp.proper (FileTree.node?_set_self ..)
      ((hdir _).not.2 (ht.entries name hp.area))
    cases he.symm.trans hf

theorem written_batchName (ht : d.Tidy) (hr : d.Roomy (k + 1)) (hi : i < 2 ^ 64) (batch : Bytes) :
    (written d (batchName i) (.ofBytes batch)).1 = .returned (.ok batch.length) := by
  have hroom : (batchName i ++ suffix d.processId d.staged).utf8ByteSize ≤ FileTree.nameLimit := by
    have hs := hr.staged
    have hb := utf8ByteSize_batchName_le hi
    have hs := utf8ByteSize_suffix_le (j := d.staged) hr.processId (by omega)
    rw [String.utf8ByteSize_append, FileTree.nameLimit]
    omega
  have h := d.allOrNothing (batchName i) (.ofBytes batch)
  generalize written d (batchName i) (.ofBytes batch) = x at h
  cases h
  case stored        => rw [Source.supplied_ofBytes]
  case refused ho hs =>
    obtain ⟨e, -, he⟩ := ht.source_of_obstacle hr.shallow (plain_batchName hi) hroom ho
    rw [Source.ending_ofBytes] at he
    cases he

end Directory
end BitPacking.Archive
