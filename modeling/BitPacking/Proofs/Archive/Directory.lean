import BitPacking.Archive.Directory
import BitPacking.Proofs.Archive.EntryEncoder.Trace
import BitPacking.Proofs.Archive.FileTree

namespace BitPacking.Archive.Directory

open FileTree (Below Entry Place SameTop place)
open Name (Idle)

def suffix (processId staged : Nat) : String :=
  "." ++ toString processId ++ "." ++ toString staged

theorem toList_append_suffix (name : String) (processId staged : Nat) :
    (name ++ suffix processId staged).toList =
      (name.toList ++ '.' :: (toString processId).toList) ++ '.' :: (toString staged).toList := by
  simp [suffix]

theorem stagingPath_eq (d : Directory) (name : String) : d.stagingPath name =
    stagingArea :: Name.segments (name ++ suffix d.processId d.staged) := by
  rw [stagingPath, suffix, ← String.append_assoc, ← String.append_assoc, ← String.append_assoc]
  rfl

theorem of_mem_suffix {processId staged : Nat} {c : Char}
    (h : c ∈ (suffix processId staged).toList) : c = '.' ∨ c.isDigit = true := by
  simp only [suffix, String.toList_append, List.mem_append] at h
  rcases h with ((h | h) | h) | h
  · exact .inl (List.mem_singleton.1 h)
  · exact .inr (Name.isDigit_of_mem_toString h)
  · exact .inl (List.mem_singleton.1 h)
  · exact .inr (Name.isDigit_of_mem_toString h)

theorem slash_not_mem_suffix (processId staged : Nat) :
    '/' ∉ (suffix processId staged).toList :=
  fun h => absurd (of_mem_suffix h) (by decide)

theorem exists_digit_suffix (processId staged : Nat) :
    ∃ c ∈ (suffix processId staged).toList, c.isDigit = true := by
  have ⟨c, hc⟩ := Name.exists_mem_toString staged
  refine ⟨c, ?_, Name.isDigit_of_mem_toString hc⟩
  simp only [suffix, String.toList_append, List.mem_append]
  exact .inr hc

theorem not_idle_suffix (name : String) (processId staged : Nat) :
    ¬Idle (name ++ suffix processId staged) ∧ name ++ suffix processId staged ≠ ".." := by
  have ⟨c, hc, hd⟩ := exists_digit_suffix processId staged
  refine Name.not_idle_of_digit (c := c) ?_ hd
  rw [String.toList_append]
  exact List.mem_append_right _ hc

theorem entryPath_ok {name : String} {entry : List String} (h : entryPath name = .ok entry) :
    Name.validate name = .ok () ∧ name ≠ stagingArea ∧ entry = Name.segments name := by
  have ⟨_, hv, h⟩ := FileTree.bind_ok h
  split at h
  case isTrue     => cases h
  case isFalse hn => cases h; exact ⟨hv, hn, rfl⟩

theorem entry_of_entryPath {name : String} {entry : List String} (h : entryPath name = .ok entry) :
    Entry entry := by
  have ⟨hv, _, he⟩ := entryPath_ok h
  have ⟨s, rest, hs, h⟩ := Name.segments_of_valid hv
  exact ⟨s, rest, he.trans hs, h⟩

-- Places of staging files: below the staging area, with names that end in two numbers.
def Numbered (processId staged : Nat) (p : Place) : Prop :=
  ∃ front last, p = stagingArea :: (front ++ [last ++ suffix processId staged])

theorem down_stagingPath (d : Directory) {name : String} (h : Name.validate name = .ok ()) :
    ".." ∉ d.stagingPath name := by
  have ⟨front, last, hf, hl⟩ :=
    Name.segments_append (slash_not_mem_suffix d.processId d.staged) name
  have ⟨s, rest, hs, _, hu, hr⟩ := Name.segments_of_valid h
  have hfront : ".." ∉ front := by
    intro hm
    have hm : ".." ∈ s :: rest := hs ▸ hf ▸ List.mem_append_left _ hm
    rcases List.mem_cons.1 hm with rfl | hm
    · exact hu rfl
    · exact absurd (hr _ hm) (by decide)
  rw [stagingPath_eq, hl]
  simp only [List.mem_cons, List.mem_append, List.not_mem_nil, or_false, not_or]
  exact ⟨by decide, hfront, Ne.symm (not_idle_suffix last d.processId d.staged).right⟩

theorem numbered_stagingPath (d : Directory) (name : String) :
    Numbered d.processId d.staged (place (d.stagingPath name)) := by
  have ⟨front, last, _, hl⟩ :=
    Name.segments_append (slash_not_mem_suffix d.processId d.staged) name
  have hi := (not_idle_suffix last d.processId d.staged).left
  refine ⟨place front, last, ?_⟩
  rw [stagingPath_eq, hl, place, List.filter_cons_of_pos (by decide), List.filter_append,
    List.filter_cons_of_pos (by simpa using hi)]
  rfl

theorem Numbered.below {processId staged : Nat} {p : Place} (h : Numbered processId staged p) :
    1 < p.length := by
  obtain ⟨front, last, rfl⟩ := h
  simp

theorem below_stagingPath (d : Directory) {name : String} (h : Name.validate name = .ok ()) :
    Below (d.stagingPath name) :=
  FileTree.below_of_place (d.down_stagingPath h) (d.numbered_stagingPath name).below

theorem sameTop_append {staging : List String} (h : Below staging) (d : Directory) (bytes : Bytes) :
    SameTop d.files (d.append staging bytes).files := by
  rw [append]
  split
  case isTrue  => exact .refl _
  case isFalse => exact FileTree.sameTop_append h d.files bytes

variable [Compression]

theorem sameEntries {d d' : Directory} (h : SameTop d.files d'.files) : SameEntries d d' where
  read name     := by
    simp only [Archive.read, Directory.read]
    match he : entryPath name with
    | .error _  => rfl
    | .ok entry => simp only [bind, Except.bind, h.read (entry_of_entryPath he)]
  contains name := by
    simp only [Archive.contains, Directory.contains]
    split
    case h_1 entry he => rw [FileTree.isFile, FileTree.isFile, h.read (entry_of_entryPath he)]
    case h_2          => rfl
  names         := h.names

def Write.Untold : Write → Prop
  | validating _ | done (.error _)                                 => True
  | creating _ staging | sealing _ staging _ | clearing staging _ => Below staging
  | placing .. | done (.ok _)                                      => False

-- Writes that stage content where it does not count as an entry.
def Write.Staged : Write → Prop
  | validating _ | done _                                          => True
  | creating _ staging | sealing _ staging _ | clearing staging _
  | placing _ staging _                                            => Below staging

theorem Write.Untold.staged {w : Write} (h : w.Untold) : w.Staged := by
  cases w
  case placing => cases h
  case validating | done => trivial
  all_goals exact h

-- What a turn does to a write and to the entries: they stay as they are unless the write succeeds.
structure Advances (d : Directory) (w : Write) (d' : Directory) (w' : Write) : Prop where
  staged  : w'.Staged
  untold  : w.Untold → w'.Untold
  entries : SameTop d.files d'.files ∨ ∃ n, w' = .done (.ok n)

theorem turn_advances (d : Directory) {w : Write} (h : w.Staged) :
    Advances d w (d.turn w).value.1 (d.turn w).value.2 := by
  cases w
  case validating name                =>
    simp only [turn]
    split
    case h_1 entry he =>
      have hb := d.below_stagingPath (entryPath_ok he).left
      exact ⟨hb, fun _ => hb, .inl (.refl _)⟩
    case h_2          => exact ⟨trivial, fun _ => trivial, .inl (.refl _)⟩
  case creating entry staging         =>
    simp only [turn]
    split
    case h_1 files hf => exact ⟨h, fun _ => h, .inl (FileTree.sameTop_create h hf)⟩
    case h_2          => exact ⟨h, fun _ => h, .inl (.refl _)⟩
  case placing entry staging length   =>
    simp only [turn]
    split
    case h_1 files hf => exact ⟨trivial, fun hu => hu.elim, .inr ⟨length, rfl⟩⟩
    case h_2          => exact ⟨h, fun hu => hu.elim, .inl (.refl _)⟩
  case clearing staging failure       =>
    simp only [turn]
    split
    case h_1 files hf =>
      exact ⟨trivial, fun _ => trivial, .inl (FileTree.sameTop_remove h hf)⟩
    case h_2          => exact ⟨trivial, fun _ => trivial, .inl (.refl _)⟩
  case sealing                        => exact ⟨h, id, .inl (.refl _)⟩
  case done                           => exact ⟨h, id, .inl (.refl _)⟩

theorem feed_staged (d : Directory) {w : Write} (h : w.Staged) (x : Source.Answer) :
    (d.feed w x).2.Staged ∧ SameTop d.files (d.feed w x).1.files := by
  cases w
  case sealing entry staging s =>
    cases x
    case data content => exact ⟨h, sameTop_append h d _⟩
    case endOfInput   => exact ⟨h, sameTop_append h d _⟩
    case failure      => exact ⟨h, .refl _⟩
    all_goals exact ⟨h, .refl _⟩
  all_goals exact ⟨h, .refl _⟩

theorem feed_untold (d : Directory) {w : Write} (h : w.Untold) {x : Source.Answer}
    (hx : x ≠ .endOfInput) : (d.feed w x).2.Untold := by
  cases w
  case sealing entry staging s =>
    cases x
    case endOfInput => exact absurd rfl hx
    all_goals exact h
  all_goals exact h

theorem atomic : EntryEncoder.Atomic (σ := Directory) Write.Untold Write.Staged
    fun c => ∀ n, c ≠ .returned (.ok n) where
  stages        := {
    begin _            := trivial
    known _ hw         := hw.staged
    turn d _ _ hw      := (turn_advances d hw.staged).untold hw
    feed d w n x hr hw hx := by
      refine feed_untold d hw ?_
      rintro rfl
      cases w
      case sealing =>
        cases hr
        exact absurd (hx rfl) (by decide)
      all_goals cases hr
    done w c hr hw n   := by
      cases w
      case done outcome =>
        cases outcome
        case error e => cases hr; exact nofun
        case ok n    => cases hw
      all_goals cases hr
    turn_known d _ _ hw     := (turn_advances d hw).staged
    feed_known d _ _ x _ hw := (feed_staged d hw x).left }
  failing _ h   := h
  feed d _ _ x _ hw := sameEntries (feed_staged d hw x).right
  turn d w _ hw :=
    (turn_advances d hw).entries.imp sameEntries fun ⟨n, hn⟩ => ⟨n, congrArg Write.request hn⟩

end BitPacking.Archive.Directory
