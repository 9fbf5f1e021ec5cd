import BitPacking.Proofs.Archive.Directory
import BitPacking.Proofs.Archive.EntryEncoder.Discipline
import BitPacking.Proofs.Archive.Seal

namespace BitPacking.Archive.Directory

open EntryEncoder (Progress)
open FileTree (Alters Entry Node Place Proper)
open Name (Idle)

def staging (processId : Nat) (name : String) (staged : Nat) : Place :=
  [stagingArea, name ++ suffix processId staged]

theorem stagingPath_of_not_mem {d : Directory} {name : String} (h : '/' ∉ name.toList) :
    d.stagingPath name = staging d.processId name d.staged := by
  rw [stagingPath_eq, Name.segments_of_not_mem, staging]
  rw [String.toList_append, List.mem_append, not_or]
  exact ⟨h, slash_not_mem_suffix _ _⟩

theorem after_last {c : Char} {xs ys ds es : List Char} (hd : c ∉ ds) (he : c ∉ es)
    (h : xs ++ c :: ds = ys ++ c :: es) : xs = ys ∧ ds = es := by
  have hw (zs fs : List Char) (hf : c ∉ fs) :
      (zs ++ c :: fs).reverse.takeWhile (· ≠ c) = fs.reverse := by
    rw [List.reverse_append, List.reverse_cons, List.append_assoc, List.takeWhile_append_of_pos]
    · simp
    · intro a ha
      simpa using fun hac : a = c => hf (hac ▸ List.mem_reverse.1 ha)
  have hr := hw xs ds hd
  rw [h, hw ys es he, List.reverse_inj] at hr
  exact ⟨List.append_cancel_right (hr ▸ h), hr.symm⟩

-- The numbers have no dots in them, so that both parts of the name of a staging file can be told.
theorem append_suffix_inj {processId staged staged' : Nat} {x y : String}
    (h : x ++ suffix processId staged = y ++ suffix processId staged') :
    x = y ∧ staged = staged' := by
  have hdot (n : Nat) : '.' ∉ (toString n).toList :=
    fun h => absurd (Name.isDigit_of_mem_toString h) (by decide)
  have hl := congrArg String.toList h
  rw [toList_append_suffix, toList_append_suffix] at hl
  have ⟨hfront, hnumber⟩ := after_last (hdot _) (hdot _) hl
  have hname := (after_last (hdot _) (hdot _) hfront).left
  exact ⟨String.toList_inj.1 hname, Name.toString_inj (String.toList_inj.1 hnumber)⟩

theorem staging_inj {processId staged staged' : Nat} {name name' : String}
    (h : staging processId name staged = staging processId name' staged') : name = name' :=
  (append_suffix_inj (List.cons.inj (List.cons.inj h).right).left).left

theorem Numbered.unique {processId staged staged' : Nat} {p : Place}
    (h : Numbered processId staged p) (h' : Numbered processId staged' p) : staged = staged' := by
  obtain ⟨front, last, rfl⟩ := h
  obtain ⟨front', last', he⟩ := h'
  have hs := (List.append_inj' (List.cons.inj he).right rfl).right
  exact (append_suffix_inj (List.cons.inj hs).left).right

-- Names that entry encoders can have, out of some.
structure Plain (N : String → Prop) (name : String) : Prop where
  mem    : N name
  valid  : Name.validate name = .ok ()
  slash  : '/' ∉ name.toList
  area   : name ≠ stagingArea
  proper : Proper name

-- A directory in which some more entries with such names can be written.
structure Ready (N : String → Prop) (k : Nat) (d : Directory) : Prop where
  shallow : d.files.Shallow
  root    : d.files.node? [] = some .directory
  area    : d.files.node? [stagingArea] = some .directory
  entries : ∀ name, N name → d.files.node? [name] ≠ some .directory
  files   : ∀ s, d.files.node? [stagingArea, s] ≠ some .directory
  short   : ∀ name, N name → ∀ j < d.staged + k,
    (name ++ suffix d.processId j).utf8ByteSize ≤ FileTree.nameLimit

-- The places that the writes of an entry have to themselves.
def Belongs (processId : Nat) (name : String) (p : Place) : Prop :=
  p = [name] ∨ ∃ j, p = staging processId name j

def Apart (name : String) (d d' : Directory) : Prop :=
  d'.processId = d.processId ∧ Alters (Belongs d.processId name) d.files d'.files

variable {N : String → Prop} {d d' : Directory} {name name' : String} {k k' j : Nat}

theorem Plain.entryPath (h : Plain N name) : entryPath name = .ok [name] := by
  rw [Directory.entryPath, h.valid]
  simp only [bind, Except.bind, if_neg h.area, Name.segments_of_not_mem h.slash]

theorem proper_stagingArea : Proper stagingArea :=
  ⟨by decide, by decide, by decide⟩

theorem Plain.proper_suffix (h : Plain N name)
    (hj : (name ++ suffix d.processId j).utf8ByteSize ≤ FileTree.nameLimit) :
    Proper (name ++ suffix d.processId j) where
  down  := not_idle_suffix name d.processId j
  short := hj
  clean := by
    rw [String.toList_append, List.mem_append, not_or]
    exact ⟨h.proper.clean, fun hc => absurd (of_mem_suffix hc) (by decide)⟩

theorem Plain.inside {t : FileTree} (h : Plain N name) (ht : t.Shallow)
    (h₀ : t.node? [] = some .directory) (h₁ : t.node? [stagingArea] = some .directory)
    (hj : (name ++ suffix d.processId j).utf8ByteSize ≤ FileTree.nameLimit) :
    t.Inside stagingArea (name ++ suffix d.processId j) :=
  ⟨ht, proper_stagingArea, h.proper_suffix hj, h₀, h₁⟩

theorem Ready.inside (h : Ready N k d) (hp : Plain N name)
    (hj : (name ++ suffix d.processId j).utf8ByteSize ≤ FileTree.nameLimit) :
    d.files.Inside stagingArea (name ++ suffix d.processId j) :=
  hp.inside h.shallow h.root h.area hj

theorem Ready.less (h : Ready N k' d) (hk : k ≤ k') : Ready N k d :=
  ⟨h.shallow, h.root, h.area, h.entries, h.files, fun n hn j hj =>
    h.short n hn j (Nat.lt_of_lt_of_le hj (Nat.add_le_add_left hk _))⟩

-- Opening an archive makes the directories that are missing, and changes nothing else.
theorem prepare_ok (h : prepare d false = .ok d') : d'.processId = d.processId ∧
    d'.staged = d.staged ∧ d'.files.lead = d.files.lead ∧ ∀ p, d'.files.node? p =
      if p = [] ∨ p = [stagingArea] then some .directory else d.files.node? p := by
  simp only [prepare, Bool.false_eq_true, false_and, if_false, bind, Except.bind] at h
  match hm : d.files.makeDirectories [stagingArea] with
  | (.error e, files) =>
    rw [hm] at h
    cases h
  | (.ok (), files)   =>
    rw [hm] at h
    cases h
    refine ⟨rfl, rfl, ?_, fun p => ?_⟩
    · have hl := FileTree.lead_makeDirectories proper_stagingArea d.files
      rwa [hm] at hl
    · have hn := FileTree.node?_makeDirectories proper_stagingArea (by rw [hm]) p
      rwa [hm] at hn

theorem prepare_self (ht : d.files.Shallow) (h₀ : d.files.node? [] = some .directory)
    (h₁ : d.files.node? [stagingArea] = some .directory) : prepare d false = .ok d := by
  have hm := FileTree.makeDirectories_self ht proper_stagingArea h₀ h₁
  simp only [prepare, Bool.false_eq_true, false_and, if_false, bind, Except.bind, hm]
  rfl

theorem prepare_delete {deleteExisting : Bool} (h : prepare d deleteExisting = .ok d') :
    prepare { d with files.nodes :=
      if deleteExisting ∧ (d.files.node? []).isSome then {} else d.files.nodes } false = .ok d' := by
  by_cases hc : deleteExisting ∧ (d.files.node? []).isSome
  case neg =>
    rw [if_neg hc]
    simpa only [prepare, Bool.false_eq_true, false_and, if_false, if_neg hc] using h
  case pos =>
    rw [if_pos hc]
    rw [prepare, if_pos hc, FileTree.removeAll] at h
    match hr : d.files.needDirectory [] with
    | .error _ => rw [hr] at h; cases h
    | .ok ()   => rw [hr] at h; exact h

-- Nothing but what opening an archive makes.
def Vacant (t : FileTree) : Prop :=
  ∀ p, p ≠ [] → p ≠ [stagingArea] → t.node? p = none

theorem prepare_vacant {deleteExisting : Bool} (h : prepare d deleteExisting = .ok d')
    (hv : Vacant d.files ∨ deleteExisting = true ∧ (d.files.node? []).isSome) :
    d'.processId = d.processId ∧ d'.staged = d.staged ∧ d'.files.lead = d.files.lead ∧
      ∀ p, d'.files.node? p = if p = [] ∨ p = [stagingArea] then some .directory else none := by
  have ⟨hpid, hst, hlead, hnode⟩ := prepare_ok (prepare_delete h)
  refine ⟨hpid, hst, hlead, fun p => ?_⟩
  rw [hnode]
  split
  case isTrue     => rfl
  case isFalse hp =>
    have ⟨h₀, h₁⟩ := not_or.1 hp
    dsimp only
    split
    case isTrue     => rfl
    case isFalse hc => exact hv.resolve_right hc p h₀ h₁

theorem vacant_empty (lead : Nat) : Vacant { lead } :=
  fun _ _ _ => rfl

theorem Ready.of_vacant {deleteExisting : Bool} (h : prepare d deleteExisting = .ok d')
    (hv : Vacant d.files ∨ deleteExisting = true ∧ (d.files.node? []).isSome)
    (ht : d.files.Shallow) (ha : ¬N stagingArea) (hs : ∀ name, N name → ∀ j < d.staged + k,
      (name ++ suffix d.processId j).utf8ByteSize ≤ FileTree.nameLimit) : Ready N k d' := by
  have ⟨hpid, hst, hlead, hnode⟩ := prepare_vacant h hv
  have hnone {p : Place} (hp : p ≠ []) (hp' : p ≠ [stagingArea]) :
      d'.files.node? p ≠ some .directory := by
    rw [hnode, if_neg (not_or.2 ⟨hp, hp'⟩)]
    nofun
  constructor
  case shallow => rw [FileTree.Shallow, hlead]; exact ht
  case root    => rw [hnode, if_pos (.inl rfl)]
  case area    => rw [hnode, if_pos (.inr rfl)]
  case entries => exact fun n hn => hnone (by simp) fun he => ha ((List.cons.inj he).left ▸ hn)
  case files   => exact fun s => hnone (by simp) (by simp)
  case short   => rw [hpid, hst]; exact hs

theorem Ready.belongs (h : Ready N k d) (hp : Plain N name) {p : Place}
    (hb : Belongs d.processId name p) : d.files.node? p ≠ some .directory := by
  rcases hb with rfl | ⟨j, rfl⟩
  · exact h.entries name hp.mem
  · exact h.files _

theorem Ready.alters (h : Ready N k d) (hp : Plain N name) {files : FileTree} {staged : Nat}
    (ha : Alters (Belongs d.processId name) d.files files) (hk : staged + k' ≤ d.staged + k) :
    Ready N k' { d with files, staged } where
  shallow        := by rw [FileTree.Shallow, ha.lead]; exact h.shallow
  root           := (ha.same [] (by simp [Belongs, staging])).trans h.root
  area           := (ha.same [stagingArea] (by simp [Belongs, staging, hp.area.symm])).trans h.area
  entries n hn   := by
    by_cases hb : Belongs d.processId name [n]
    case pos => exact ha.files _ hb
    case neg => rw [ha.same _ hb]; exact h.entries n hn
  files s        := by
    by_cases hb : Belongs d.processId name [stagingArea, s]
    case pos => exact ha.files _ hb
    case neg => rw [ha.same _ hb]; exact h.files s
  short n hn j hj := h.short n hn j (Nat.lt_of_lt_of_le hj hk)

theorem not_belongs_of_ne (hn : name' ≠ name) (processId j : Nat) :
    ¬Belongs processId name (staging processId name' j) := by
  rintro (h | ⟨j', h⟩)
  · cases h
  · exact hn (staging_inj h)

def Own (processId : Nat) (name : String) (p : Place) : Prop :=
  ∃ j, p = staging processId name j ∧
    (name ++ suffix processId j).utf8ByteSize ≤ FileTree.nameLimit

theorem Own.belongs {processId : Nat} {name : String} {q : Place} (h : Own processId name q) :
    Belongs processId name q :=
  have ⟨j, hj, _⟩ := h
  .inr ⟨j, hj⟩

theorem Ready.refl (hr : Ready N k d) (hp : Plain N name) :
    Alters (Belongs d.processId name) d.files d.files :=
  .refl fun _ => hr.belongs hp

-- A tree in which some files of an entry were changed, as operations find it.
structure Holds (N : String → Prop) (name : String) (d : Directory) (t : FileTree) : Prop where
  alters  : Alters (Belongs d.processId name) d.files t
  shallow : t.Shallow
  root    : t.node? [] = some .directory
  area    : t.node? [stagingArea] = some .directory

theorem Ready.holds (hr : Ready N k d) (hp : Plain N name) {t : FileTree}
    (ha : Alters (Belongs d.processId name) d.files t) : Holds N name d t :=
  have h : Ready N k { d with files := t } := hr.alters hp ha (Nat.le_refl _)
  ⟨ha, h.shallow, h.root, h.area⟩

theorem Holds.inside {t : FileTree} (h : Holds N name d t) (hp : Plain N name)
    (hj : (name ++ suffix d.processId j).utf8ByteSize ≤ FileTree.nameLimit) :
    t.Inside stagingArea (name ++ suffix d.processId j) :=
  hp.inside h.shallow h.root h.area hj

theorem Holds.append {t : FileTree} {q : Place} (h : Holds N name d t) (hp : Plain N name)
    (hq : Own d.processId name q) (bytes : Bytes) :
    Alters (Belongs d.processId name) d.files (t.append q bytes) := by
  have ⟨j, hj, hshort⟩ := hq
  subst hj
  rcases (h.inside hp hshort).append bytes with he | ⟨content, he⟩
  · rw [staging, he]
    exact h.alters
  · rw [staging, he]
    exact h.alters.set (.inr ⟨j, rfl⟩) content

theorem own_stagingPath (hr : Ready N (1 + k) d) (hp : Plain N name) :
    Own d.processId name (d.stagingPath name) :=
  ⟨d.staged, stagingPath_of_not_mem hp.slash, hr.short name hp.mem d.staged (by omega)⟩

-- A staging file can be created, as nothing but a file can be in its place.
theorem create_own {q : Place} (hr : Ready N k d) (hp : Plain N name)
    (hq : Own d.processId name q) : d.files.create q = .ok (d.files.set q (.file [])) := by
  have ⟨j, hj, hshort⟩ := hq
  subst hj
  exact (hr.inside hp hshort).create (hr.files _)

theorem node?_append {t : FileTree} {q : Place} {sealed : Bytes} (h : Holds N name d t)
    (hp : Plain N name) (hq : Own d.processId name q) (hf : t.node? q = some (.file sealed))
    (bytes : Bytes) : (t.append q bytes).node? q = some (.file (sealed ++ bytes)) := by
  have ⟨j, hj, hshort⟩ := hq
  have hl : t.locate q = .ok q := hj ▸ (h.inside hp hshort).locate
  rw [FileTree.append_eq_set hl hf, FileTree.node?_set_self]

variable [Compression]

theorem read_congr {path : List String} (he : entryPath name = .ok path)
    (h : d'.files.read path = d.files.read path) : Archive.read d' name = Archive.read d name := by
  simp only [Archive.read, Directory.read, he, bind, Except.bind, h]

theorem contains_of_entryPath {path : List String} (he : entryPath name = .ok path)
    (d : Directory) : Archive.contains d name = d.files.isFile path := by
  simp only [Archive.contains, Directory.contains, he]

theorem stored?_top (hl : d'.files.lead = d.files.lead)
    (h₀ : d'.files.node? [] = d.files.node? [])
    (h₁ : d'.files.node? [name] = d.files.node? [name]) : stored? d' name = stored? d name := by
  cases he : entryPath name
  case error   =>
    have hc (d : Directory) : Archive.contains d name = false := by
      simp only [Archive.contains, Directory.contains, he]
    exact stored?_congr (by rw [hc, hc]) fun h => by rw [hc] at h; cases h
  case ok path =>
    have hentry := entry_of_entryPath he
    have hsegments := (entryPath_ok he).right.right
    have hread (h : ∀ s, path.head? = some s → s = name) : stored? d' name = stored? d name := by
      have hr := hentry.read_congr hl h₀ fun s hs => h s hs ▸ h₁
      refine stored?_congr ?_ fun _ => read_congr he hr
      rw [contains_of_entryPath he, contains_of_entryPath he, FileTree.isFile, hr, FileTree.isFile]
    rcases path with _ | ⟨s, _ | ⟨r, rest⟩⟩
    · exact hread (by simp)
    · refine hread fun s' hs => ?_
      cases hs
      exact (Name.eq_of_segments hsegments.symm).symm
    · have hc (d : Directory) : Archive.contains d name = false := by
        rw [contains_of_entryPath he, hentry.not_isFile]
      exact stored?_congr (by rw [hc, hc]) fun h => by rw [hc] at h; cases h

theorem stored?_apart (ha : Apart name d d') (hn : name' ≠ name) :
    stored? d' name' = stored? d name' :=
  stored?_top ha.right.lead (ha.right.same [] (by simp [Belongs, staging]))
    (ha.right.same [name'] (by simpa [Belongs, staging] using hn))

def Write.Of (processId : Nat) (name : String) : Write → Prop
  | validating n                => n = name
  | creating entry staging      => entry = [name] ∧ Own processId name staging
  | sealing entry staging _     => entry = [name] ∧ Own processId name staging
  | placing entry staging _     => entry = [name] ∧ Own processId name staging
  | clearing staging _          => Own processId name staging
  | done _                      => True

-- How far a write has come with what it was given.
inductive Write.At (name : String) : Progress → Directory → Write → Prop
  | validating {d : Directory} :
      At name (.taking []) d (.validating name)
  | creating {d : Directory} {p : Place} (h : Own d.processId name p) :
      At name (.taking []) d (.creating [name] p)
  | sealing {d : Directory} {p : Place} {got sealed : Bytes} {s : Seal}
      (h : Own d.processId name p) (hn : d.files.node? p = some (.file sealed))
      (hs : s.Sealed got sealed) :
      At name (.taking got) d (.sealing [name] p s)
  | placing {d : Directory} {p : Place} {content sealed : Bytes} (h : Own d.processId name p)
      (hn : d.files.node? p = some (.file sealed))
      (hs : Seal.contentOf name sealed = .ok content) :
      At name (.given content) d (.placing [name] p content.length)
  | lost {d : Directory} {w : Write} (h : w.Of d.processId name) :
      At name .lost d w

def Write.fresh : Write → Nat
  | validating _ => 1
  | _            => 0

variable {w : Write} {p p' : Progress} {x : Source.Answer}

theorem Write.At.of (h : w.At name p d) : w.Of d.processId name := by
  cases h
  case validating  => rfl
  case creating h  => exact ⟨rfl, h⟩
  case sealing h _ => exact ⟨rfl, h⟩
  case placing h _ => exact ⟨rfl, h⟩
  case lost h      => exact h

theorem Write.At.apart (ha : Apart name d d') (hn : name' ≠ name) (h : w.At name' p d) :
    w.At name' p d' := by
  have ⟨hpid, ha⟩ := ha
  have hnode {q : Place} (hq : Own d.processId name' q) : d'.files.node? q = d.files.node? q := by
    have ⟨j, hj, _⟩ := hq
    exact ha.same q (hj ▸ not_belongs_of_ne hn d.processId j)
  cases h
  case validating      => exact .validating
  case creating h      => exact .creating (hpid ▸ h)
  case sealing hs h hf => exact .sealing (hpid ▸ h) ((hnode h).trans hf) hs
  case placing hs h hf => exact .placing (hpid ▸ h) ((hnode h).trans hf) hs
  case lost h          => exact .lost (hpid ▸ h)

-- What a step of a write leaves, whatever it has been given.
structure Stays (N : String → Prop) (name : String) (k : Nat) (d : Directory)
    (x : Directory × Write) : Prop where
  ready : Ready N (x.2.fresh + k) x.1
  apart : Apart name d x.1
  of    : x.2.Of x.1.processId name

theorem Stays.of_alters {files : FileTree} (hr : Ready N k d) (hp : Plain N name)
    (ha : Alters (Belongs d.processId name) d.files files) (hf : w.fresh = 0)
    (ho : w.Of d.processId name) : Stays N name k d ({ d with files }, w) :=
  ⟨hr.alters hp ha (by rw [hf, Nat.zero_add]), ⟨rfl, ha⟩, ho⟩

theorem turn_stays (hr : Ready N (w.fresh + k) d) (hp : Plain N name) (hq : w.request = .turn)
    (h : w.Of d.processId name) : Stays N name k d (d.turn w).value := by
  have ha := hr.refl hp
  have hr' : Ready N k d := hr.less (Nat.le_add_left ..)
  cases w
  case validating n           =>
    cases h
    simp only [turn, hp.entryPath]
    refine ⟨hr.alters hp ha ?_, ⟨rfl, ha⟩, rfl, own_stagingPath hr hp⟩
    show d.staged + 1 + (0 + k) ≤ d.staged + (1 + k)
    omega
  case creating entry q       =>
    obtain ⟨rfl, hown⟩ := h
    simp only [turn, create_own hr hp hown]
    exact .of_alters hr' hp (ha.set hown.belongs []) rfl ⟨rfl, hown⟩
  case placing entry q length =>
    obtain ⟨rfl, hown⟩ := h
    obtain ⟨j, rfl, hshort⟩ := id hown
    simp only [turn]
    split
    case h_2          => exact .of_alters hr' hp ha rfl hown
    case h_1 files hf =>
      obtain ⟨content, he⟩ := (hr.inside hp hshort).rename_ok hp.proper hf
      rw [he]
      exact .of_alters hr' hp ((ha.erase hown.belongs).set (.inl rfl) content) rfl trivial
  case clearing q failure     =>
    obtain ⟨j, rfl, hshort⟩ := id h
    simp only [turn]
    split
    case h_2          => exact .of_alters hr' hp ha rfl trivial
    case h_1 files hf =>
      rw [(hr.inside hp hshort).remove_ok hf]
      exact .of_alters hr' hp (ha.erase h.belongs) rfl trivial
  case sealing => cases hq
  case done    => cases hq

theorem feed_stays (hr : Ready N (w.fresh + k) d) (hp : Plain N name)
    (hq : ∃ n, w.request = .input n) (h : w.Of d.processId name) (x : Source.Answer) :
    Stays N name k d (d.feed w x) := by
  have ha := hr.refl hp
  have hr' : Ready N k d := hr.less (Nat.le_add_left ..)
  obtain ⟨m, hq⟩ := hq
  cases w
  case sealing entry q s =>
    have hown := h.right
    have happend (bytes : Bytes) {w' : Write} (hf : w'.fresh = 0) (ho : w'.Of d.processId name) :
        Stays N name k d (d.append q bytes, w') := by
      rw [append]
      split
      case isTrue  => exact .of_alters hr' hp ha hf ho
      case isFalse => exact .of_alters hr' hp ((hr.holds hp ha).append hp hown bytes) hf ho
    cases x
    case data        => exact happend _ rfl h
    case endOfInput  => exact happend _ rfl h
    case interrupted => exact .of_alters hr' hp ha rfl h
    case failure     => exact .of_alters hr' hp ha rfl hown
  all_goals cases hq

theorem stored?_file {path : List String} {p : Place} {sealed : Bytes}
    (he : entryPath name = .ok path) (hl : d.files.locate path = .ok p)
    (hf : d.files.node? p = some (.file sealed)) :
    stored? d name = some (Seal.contentOf name sealed) := by
  have hr := FileTree.read_eq_ok hl hf
  have hcontains : Archive.contains d name = true := by
    rw [contains_of_entryPath he, FileTree.isFile, hr]
    rfl
  have hread : Archive.read d name = Seal.contentOf name sealed := by
    simp only [Archive.read, Directory.read, he, bind, Except.bind, hr]
  rw [stored?, if_pos hcontains, hread]

theorem at_turn (hr : Ready N (w.fresh + k) d) (hp : Plain N name) (hq : w.request = .turn)
    (h : w.At name p d) : p.Turned (fun p d w => Plain N name ∧ Write.At name p d w) name
      (d.turn w).value.1 (d.turn w).value.2 := by
  have ha := hr.refl hp
  have hs := turn_stays hr hp hq h.of
  cases h
  case validating         =>
    simp only [turn, hp.entryPath]
    exact ⟨hp, .creating (own_stagingPath hr hp)⟩
  case creating q hown    =>
    simp only [turn, create_own hr hp hown]
    exact ⟨hp, .sealing hown (FileTree.node?_set_self ..) Seal.sealed_nil⟩
  case placing hc hown hf =>
    obtain ⟨j, rfl, hshort⟩ := id hown
    have hren := (hr.inside hp hshort).rename hp.proper hf (hr.entries name hp.mem)
    have hren : d.files.rename (staging d.processId name j) [name] = _ := hren
    simp only [turn, hren] at hs ⊢
    have hl := FileTree.locate_top hs.ready.shallow hp.proper hs.ready.root
    have hk := stored?_file hp.entryPath hl (FileTree.node?_set_self ..)
    exact ⟨rfl, hk.trans (congrArg some hc)⟩
  case sealing            => cases hq
  case lost               => exact ⟨hp, .lost hs.of⟩

section Lossless

variable [Compression.Lossless]

theorem at_feed (hr : Ready N (w.fresh + k) d) (hp : Plain N name) {n : Nat}
    (hq : w.request = .input n) (h : w.At name p d) (hx : p.Fed x p') :
    (d.feed w x).2.At name p' (d.feed w x).1 := by
  have hs := feed_stays hr hp ⟨n, hq⟩ h.of x
  have happend {q : Place} {sealed : Bytes} (hown : Own d.processId name q)
      (hf : d.files.node? q = some (.file sealed)) (bytes : Bytes) :
      (d.append q bytes).files.node? q = some (.file (sealed ++ bytes)) ∧
        (d.append q bytes).processId = d.processId := by
    rw [append]
    split
    case isTrue hb => exact ⟨by rw [List.isEmpty_iff.1 hb, List.append_nil, hf], rfl⟩
    case isFalse   => exact ⟨node?_append (hr.holds hp (hr.refl hp)) hp hown hf bytes, rfl⟩
  cases hx
  case lost       => exact .lost hs.of
  case data bytes =>
    cases h
    case validating           => cases hq
    case creating             => cases hq
    case sealing s hseal hown hf =>
      obtain ⟨hn, hpid⟩ := happend hown hf (s.write bytes).1
      exact .sealing (hpid ▸ hown) hn (hseal.write bytes)
  case ended      =>
    cases h
    case validating           => cases hq
    case creating             => cases hq
    case sealing s hseal hown hf =>
      obtain ⟨hn, hpid⟩ := happend hown hf s.finish
      have hplaced := Write.At.placing (hpid ▸ hown) hn (hseal.contentOf name)
      rw [← hseal.length] at hplaced
      exact hplaced

-- Entries with different names have different places, whatever else is in the directory.
def discipline (N : String → Prop) : EntryEncoder.Discipline Directory where
  Plain            := Plain N
  Ready            := Ready N
  At name p d w    := Plain N name ∧ w.At name p d
  Apart            := Apart
  fresh            := Write.fresh
  less hk h        := h.less hk
  begin _ h        := ⟨⟨h, .validating⟩, Nat.le_refl 1⟩
  asks h           := by
    cases h.right
    case validating => exact .inl rfl
    case creating   => exact .inl rfl
    case sealing    => exact .inr ⟨Bytes.blockSize, by decide, rfl⟩
  ends h           := by
    cases h.right
    rfl
  lose h           := ⟨h.left, .lost h.right.of⟩
  turn h hq hr     :=
    have hs := turn_stays hr h.left hq h.right.of
    ⟨hs.ready, hs.apart, at_turn hr h.left hq h.right⟩
  feed h hq hx hr  :=
    have hs := feed_stays hr h.left ⟨_, hq⟩ h.right.of _
    ⟨hs.ready, hs.apart, h.left, at_feed hr h.left hq h.right hx⟩
  stays ha _ hn h  := ⟨h.left, h.right.apart ha hn⟩
  entry ha _ _ hn  := stored?_apart ha hn

end Lossless

end BitPacking.Archive.Directory
