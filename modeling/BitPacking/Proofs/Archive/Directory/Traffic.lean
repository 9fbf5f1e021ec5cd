import BitPacking.Proofs.Archive.Directory.Write
import Mathlib.Logic.Function.Basic

namespace BitPacking.Archive.Directory

open FileTree (Place place)

-- Changes that leave all directories where they are, and everything outside of some places.
structure Touches (P : Place → Prop) (d d' : Directory) : Prop where
  processId   : d'.processId = d.processId
  lead        : d'.files.lead = d.files.lead
  staged      : d.staged ≤ d'.staged
  directories : ∀ q, d.files.node? q = some .directory → d'.files.node? q = some .directory
  same        : ∀ q, ¬P q → d'.files.node? q = d.files.node? q

-- A path that was given to a write for its staging file.
structure Assigned (d : Directory) (staging : List String) : Prop where
  down   : ".." ∉ staging
  number : ∃ j < d.staged, Numbered d.processId j (place staging)

variable {P Q : Place → Prop} {d d' d'' : Directory} {staging : List String} {p : Place}
variable {content : Bytes}

theorem Touches.refl (P : Place → Prop) (d : Directory) : Touches P d d :=
  ⟨rfl, rfl, Nat.le_refl _, fun _ => id, fun _ _ => rfl⟩

theorem Touches.mono (h : Touches P d d') (hq : ∀ q, P q → Q q) : Touches Q d d' :=
  ⟨h.processId, h.lead, h.staged, h.directories, fun q hn => h.same q (hn <| hq q ·)⟩

theorem Touches.trans (h : Touches P d d') (h' : Touches P d' d'') : Touches P d d'' where
  processId       := h'.processId.trans h.processId
  lead            := h'.lead.trans h.lead
  staged          := h.staged.trans h'.staged
  directories q   := h'.directories q ∘ h.directories q
  same q hq       := (h'.same q hq).trans (h.same q hq)

theorem Touches.set (hp : d.files.node? p ≠ some .directory) (content : Bytes) :
    Touches (· = p) d { d with files := d.files.set p (.file content) } where
  processId     := rfl
  lead          := rfl
  staged        := Nat.le_refl _
  directories _ := (FileTree.directory_set hp content).2
  same q hq     := by rw [FileTree.node?_set, if_neg hq]

theorem Touches.erase (hp : d.files.node? p ≠ some .directory) :
    Touches (· = p) d { d with files := d.files.erase p } where
  processId     := rfl
  lead          := rfl
  staged        := Nat.le_refl _
  directories _ := (FileTree.directory_erase hp).2
  same q hq     := by rw [FileTree.node?_erase, if_neg hq]

theorem touches_append (hl : d.files.locate staging = .ok p)
    (hf : d.files.node? p = some (.file content)) (bytes : Bytes) :
    Touches (· = p) d (d.append staging bytes) ∧
      (d.append staging bytes).files.node? p = some (.file (content ++ bytes)) := by
  rw [append]
  split
  case isTrue h  => exact ⟨.refl _ d, by rw [List.isEmpty_iff.1 h, List.append_nil, hf]⟩
  case isFalse   =>
    rw [FileTree.append_eq_set hl hf]
    exact ⟨.set (by simp [hf]) _, FileTree.node?_set_self ..⟩

theorem touches_prepare (h : prepare d false = .ok d') :
    Touches (fun q => q = [] ∨ q = [stagingArea]) d d' := by
  have ⟨hpid, hst, hlead, hnode⟩ := prepare_ok h
  refine ⟨hpid, hlead, Nat.le_of_eq hst.symm, fun q hq => ?_, fun q hq => ?_⟩
  · rw [hnode]
    split
    case isTrue  => rfl
    case isFalse => exact hq
  · rw [hnode, if_neg hq]

theorem Assigned.touches (h : Assigned d staging) (ht : Touches P d d') : Assigned d' staging :=
  have ⟨j, hj, hn⟩ := h.number
  ⟨h.down, j, hj.trans_le ht.staged, ht.processId ▸ hn⟩

theorem Assigned.below (h : Assigned d staging) : 1 < (place staging).length :=
  have ⟨_, _, hn⟩ := h.number
  hn.below

section

variable [Compression]

structure Writing where
  name  : String
  write : Write := .validating name
  got   : List Bytes := []

def Write.staging? : Write → Option (List String)
  | creating _ staging | sealing _ staging _ | placing _ staging _ | clearing staging _ =>
    some staging
  | validating _ | done _ => none

namespace Writing

def pieces : Source.Answer → List Bytes
  | .data bytes => [bytes]
  | _           => []

-- The next step of a write. The answer is for a write that asks for input.
def step (c : Writing) (d : Directory) (x : Source.Answer) : Directory × Writing :=
  match c.write.request with
  | .turn    =>
    let (d, write) := (d.turn c.write).value
    (d, { c with write })
  | .input _ =>
    let (d, write) := d.feed c.write x
    (d, { c with write, got := c.got ++ pieces x })
  | .done _  => (d, c)

-- Whether a step from the first to the second has renamed a file into place.
def renames (c c' : Writing) : Bool :=
  match c.write, c'.write with
  | .placing .., .done (.ok _) => true
  | _, _                       => false

def Stages (c : Writing) (p : Place) : Prop :=
  ∃ staging, c.write.staging? = some staging ∧ p = place staging

end Writing

-- How far a write has come with what it was given.
inductive Write.Sound (d : Directory) (name : String) : List Bytes → Write → Prop
  | validating : Sound d name [] (.validating name)
  | creating {entry staging : List String} (hn : entryPath name = .ok entry)
      (hs : Assigned d staging) : Sound d name [] (.creating entry staging)
  | sealing {entry staging : List String} {got : List Bytes} (hn : entryPath name = .ok entry)
      (hs : Assigned d staging) (hl : d.files.locate staging = .ok (place staging))
      (hf : d.files.node? (place staging) = some (.file (Seal.after got).1)) :
      Sound d name got (.sealing entry staging (Seal.after got).2)
  | placing {entry staging : List String} {got : List Bytes} (hn : entryPath name = .ok entry)
      (hs : Assigned d staging) (hl : d.files.locate staging = .ok (place staging))
      (hf : d.files.node? (place staging) = some (.file (Seal.ofPieces got))) :
      Sound d name got (.placing entry staging got.flatten.length)
  | clearing {staging : List String} {got : List Bytes} (hs : Assigned d staging) (e : Error) :
      Sound d name got (.clearing staging e)
  | refused {got : List Bytes} (e : Error) : Sound d name got (.done (.error e))
  | stored {got : List Bytes} : Sound d name got (.done (.ok got.flatten.length))

variable {name : String} {got : List Bytes} {w : Write}

theorem Write.Sound.touches (h : w.Sound d name got) (ht : Touches P d d')
    (hp : ∀ staging, w.staging? = some staging → ¬P (place staging)) : w.Sound d' name got := by
  cases h
  case validating          => exact .validating
  case creating hn hs      => exact .creating hn (hs.touches ht)
  case sealing hn hs hl hf =>
    exact .sealing hn (hs.touches ht) (FileTree.locate_mono ht.lead ht.directories hl)
      ((ht.same _ (hp _ rfl)).trans hf)
  case placing hn hs hl hf =>
    exact .placing hn (hs.touches ht) (FileTree.locate_mono ht.lead ht.directories hl)
      ((ht.same _ (hp _ rfl)).trans hf)
  case clearing hs e       => exact .clearing (hs.touches ht) e
  case refused e           => exact .refused e
  case stored              => exact .stored

theorem Write.Sound.assigned (h : w.Sound d name got) (hs : w.staging? = some staging) :
    Assigned d staging := by
  cases h
  case validating     => cases hs
  case creating h     => cases hs; exact h
  case sealing h _ _  => cases hs; exact h
  case placing h _ _  => cases hs; exact h
  case clearing h _   => cases hs; exact h
  case refused        => cases hs
  case stored         => cases hs

namespace Writing

-- What a step does: the staging file is all that it touches, until it is renamed.
structure Moved (c : Writing) (d d' : Directory) (c' : Writing) : Prop where
  name    : c'.name = c.name
  sound   : c'.write.Sound d' c'.name c'.got
  stages  : ∀ p, c'.Stages p → c.Stages p ∨ Numbered d.processId d.staged p
  touches : Touches (fun p => c.Stages p ∨ c.renames c' = true ∧ p = [c.name]) d d'
  renamed : c.renames c' = true → c' = ⟨c.name, .done (.ok c.got.flatten.length), c.got⟩ ∧
    d'.files.node? [c.name] = some (.file (Seal.ofPieces c.got))
  stored  : ∀ n, c'.write = .done (.ok n) → c' = c ∨ c.renames c' = true

variable {c c' : Writing} {entry : List String}

theorem stages_iff (h : c.write.staging? = some staging) : c.Stages p ↔ p = place staging := by
  simp [Stages, h]

theorem not_stages (h : c.write.staging? = none) : ¬c.Stages p := by
  simp [Stages, h]

theorem Moved.of_incomplete (hn : c'.name = c.name) (hs : c'.write.Sound d' c'.name c'.got)
    (hp : ∀ p, c'.Stages p → c.Stages p ∨ Numbered d.processId d.staged p)
    (ht : Touches c.Stages d d') (hd : ∀ n, c'.write ≠ .done (.ok n)) : Moved c d d' c' where
  name       := hn
  sound      := hs
  stages     := hp
  touches    := ht.mono fun _ => .inl
  renamed    := by
    intro hr
    rw [renames] at hr
    split at hr
    case h_1 hw => exact absurd hw (hd _)
    case h_2    => cases hr
  stored n h := absurd h (hd n)

theorem moved_validating (d : Directory) (name : String) :
    Moved ⟨name, .validating name, []⟩ d (d.turn (.validating name)).value.1
      ⟨name, (d.turn (.validating name)).value.2, []⟩ := by
  simp only [turn]
  split
  case h_1 entry hn =>
    have hnum := d.numbered_stagingPath name
    have hs : Assigned { d with staged := d.staged + 1 } (d.stagingPath name) :=
      ⟨d.down_stagingPath (entryPath_ok hn).left, d.staged, Nat.lt_succ_self _, hnum⟩
    refine .of_incomplete rfl (.creating hn hs) (fun p hp => ?_) ?_ (by simp)
    · rw [stages_iff rfl] at hp
      exact .inr (hp ▸ hnum)
    · exact ⟨rfl, rfl, Nat.le_succ _, fun _ => id, fun _ _ => rfl⟩
  case h_2 e hn     =>
    exact .of_incomplete rfl (.refused e) (fun p hp => absurd hp (not_stages rfl)) (.refl _ d)
      (by simp)

theorem moved_creating (hn : entryPath name = .ok entry) (hs : Assigned d staging) :
    Moved ⟨name, .creating entry staging, []⟩ d (d.turn (.creating entry staging)).value.1
      ⟨name, (d.turn (.creating entry staging)).value.2, []⟩ := by
  simp only [turn]
  split
  case h_1 files hc =>
    obtain ⟨p, hp, rfl⟩ := FileTree.create_ok hc
    obtain ⟨hl, _, hd⟩ := FileTree.placeForFile_eq_ok_iff.1 hp
    obtain rfl := FileTree.locate_down hs.down hl
    have ht := Touches.set hd []
    have hsound : Write.Sound { d with files := d.files.set (place staging) (.file []) } name []
        (.sealing entry staging (Seal.after []).2) :=
      .sealing hn (hs.touches ht) (locate_staging hp _) (FileTree.node?_set_self ..)
    exact .of_incomplete rfl hsound (fun _ => .inl) (ht.mono fun _ hq => ⟨staging, rfl, hq⟩)
      (by simp)
  case h_2 e hc     =>
    exact .of_incomplete rfl (.clearing hs _) (fun _ => .inl) (.refl _ d) (by simp)

theorem moved_placing (hn : entryPath name = .ok entry) (hs : Assigned d staging)
    (hl : d.files.locate staging = .ok (place staging))
    (hf : d.files.node? (place staging) = some (.file (Seal.ofPieces got))) :
    Moved ⟨name, .placing entry staging got.flatten.length, got⟩ d
      (d.turn (.placing entry staging got.flatten.length)).value.1
      ⟨name, (d.turn (.placing entry staging got.flatten.length)).value.2, got⟩ := by
  simp only [turn]
  split
  case h_1 files hr =>
    obtain ⟨s, p, content, rfl, hl', hf', hp, rfl⟩ :=
      FileTree.rename_ok (entry_of_entryPath hn) hr
    cases hl.symm.trans hl'
    cases hf.symm.trans hf'
    cases Name.eq_of_segments (entryPath_ok hn).right.right.symm
    have hd : d.files.node? (place staging) ≠ some .directory := by simp [hf]
    -- The entry is not a directory, and does not become one when the staging file is taken away.
    have hd' : (d.files.erase (place staging)).node? [name] ≠
        some .directory := by
      rw [ne_eq, FileTree.directory_erase hd]
      exact (FileTree.placeForFile_eq_ok_iff.1 hp).right.right
    constructor
    case name    => rfl
    case sound   => exact .stored
    case stages  => exact fun p hp => absurd hp (not_stages rfl)
    case touches =>
      exact ((Touches.erase hd).mono fun q hq => Or.inl ⟨staging, rfl, hq⟩).trans
        ((Touches.set hd' _).mono fun q hq => .inr ⟨rfl, hq⟩)
    case renamed => exact fun _ => ⟨rfl, FileTree.node?_set_self ..⟩
    case stored  => exact fun _ _ => .inr rfl
  case h_2 e hr     =>
    exact .of_incomplete rfl (.clearing hs _) (fun _ => .inl) (.refl _ d) (by simp)

theorem moved_clearing (hs : Assigned d staging) (e : Error) :
    Moved ⟨name, .clearing staging e, got⟩ d (d.turn (.clearing staging e)).value.1
      ⟨name, (d.turn (.clearing staging e)).value.2, got⟩ := by
  have hnone {w : Write} (hw : w.staging? = none) (p : Place) (hp : Stages ⟨name, w, got⟩ p) :
      Stages ⟨name, .clearing staging e, got⟩ p ∨ Numbered d.processId d.staged p :=
    absurd hp (not_stages hw)
  simp only [turn]
  split
  case h_1 files hr =>
    obtain ⟨p, content, hl, hf, rfl⟩ := FileTree.remove_ok hr
    obtain rfl := FileTree.locate_down hs.down hl
    have ht : Touches (· = place staging) d _ := .erase (by simp [hf])
    exact .of_incomplete rfl (.refused e) (hnone rfl) (ht.mono fun _ hq => ⟨staging, rfl, hq⟩)
      (by simp)
  case h_2 e hr     =>
    exact .of_incomplete rfl (.refused _) (hnone rfl) (.refl _ d) (by simp)

theorem moved_of_turn {w : Write} (h : w.Sound d name got) (hq : w.request = .turn) :
    Moved ⟨name, w, got⟩ d (d.turn w).value.1 ⟨name, (d.turn w).value.2, got⟩ := by
  cases h
  case validating          => exact moved_validating d name
  case creating hn hs      => exact moved_creating hn hs
  case placing hn hs hl hf => exact moved_placing hn hs hl hf
  case clearing hs e       => exact moved_clearing hs e
  all_goals cases hq

theorem moved_of_feed {w : Write} (h : w.Sound d name got) {n : Nat} (hq : w.request = .input n)
    (x : Source.Answer) :
    Moved ⟨name, w, got⟩ d (d.feed w x).1 ⟨name, (d.feed w x).2, got ++ pieces x⟩ := by
  cases h
  case sealing entry staging hn hs hl hf =>
    have hstage (q : Place) (hq : q = place staging) :
        Stages ⟨name, .sealing entry staging (Seal.after got).2, got⟩ q := ⟨staging, rfl, hq⟩
    cases x
    case data content =>
      obtain ⟨ht, hf'⟩ := touches_append hl hf ((Seal.after got).2.write content).1
      have hsound : Write.Sound (d.append staging ((Seal.after got).2.write content).1) name
          (got ++ [content]) (.sealing entry staging (Seal.after (got ++ [content])).2) :=
        .sealing hn (hs.touches ht) (FileTree.locate_mono ht.lead ht.directories hl)
          (by rw [hf', Seal.after_append])
      rw [Seal.after_append] at hsound
      exact .of_incomplete rfl hsound (fun _ => .inl) (ht.mono hstage) (by simp [feed])
    case endOfInput   =>
      obtain ⟨ht, hf'⟩ := touches_append hl hf (Seal.after got).2.finish
      have hsound := Write.Sound.placing hn (hs.touches ht)
        (FileTree.locate_mono ht.lead ht.directories hl) hf'
      simp only [feed, pieces, List.append_nil, Seal.length_after]
      exact .of_incomplete rfl hsound (fun _ => .inl) (ht.mono hstage) (by simp)
    case interrupted  =>
      simp only [feed, pieces, List.append_nil]
      exact .of_incomplete rfl (.sealing hn hs hl hf) (fun _ => .inl) (.refl _ d) (by simp)
    case failure e    =>
      exact .of_incomplete rfl (.clearing hs _) (fun _ => .inl) (.refl _ d) (by simp [feed])
  all_goals cases hq

theorem renames_self (c : Writing) : c.renames c = false := by
  rw [renames]
  split
  case h_1 hp hd => rw [hp] at hd; cases hd
  case h_2       => rfl

theorem moved (h : c.write.Sound d c.name c.got) (x : Source.Answer) :
    c.Moved d (c.step d x).1 (c.step d x).2 := by
  rw [step]
  split
  case h_1 hq   => exact moved_of_turn h hq
  case h_2 n hq => exact moved_of_feed h hq x
  case h_3      =>
    exact ⟨rfl, h, fun _ h => .inl h, .refl _ d, fun hr => by simp [renames_self] at hr,
      fun _ _ => .inl rfl⟩

theorem step_done {outcome : Except Error Nat} (h : c.write = .done outcome) (d : Directory)
    (x : Source.Answer) : c.step d x = (d, c) := by
  rw [step]
  split
  case h_1 hq => rw [h] at hq; cases hq
  case h_2 hq => rw [h] at hq; cases hq
  case h_3    => rfl

end Writing

-- A directory with the writes of one process that were begun so far.
structure Traffic (ι : Type) where
  directory : Directory
  calls     : ι → Option Writing
  -- The names and the contents of the files that were renamed into place, the latest first.
  placed    : List (String × List Bytes) := []

namespace Traffic

variable {ι : Type}

def start (d : Directory) : Traffic ι where
  directory := d
  calls _   := none

-- What is found in the place of an entry: what was renamed there last, or what was there before.
def latest? (d : Directory) (placed : List (String × List Bytes)) (s : String) :
    Option FileTree.Node :=
  match placed.lookup s with
  | some pieces => some (.file (Seal.ofPieces pieces))
  | none        => d.files.node? [s]

theorem latest?_cons (d : Directory) (placed : List (String × List Bytes)) (name s : String)
    (pieces : List Bytes) : latest? d ((name, pieces) :: placed) s =
      if s = name then some (.file (Seal.ofPieces pieces)) else latest? d placed s := by
  rw [latest?, List.lookup_cons]
  by_cases h : s = name
  case pos => simp [h]
  case neg => simp [h, beq_false_of_ne h, latest?]

structure Sound (d : Directory) (t : Traffic ι) : Prop where
  calls   : ∀ i c, t.calls i = some c → c.write.Sound t.directory c.name c.got
  apart   : ∀ i j c c' p, t.calls i = some c → t.calls j = some c' → c.Stages p → c'.Stages p →
    i = j
  entries : ∀ s ≠ stagingArea, t.directory.files.node? [s] = latest? d t.placed s
  placed  : ∀ s pieces, (s, pieces) ∈ t.placed ↔
    ∃ i, t.calls i = some ⟨s, .done (.ok pieces.flatten.length), pieces⟩

theorem start_sound (d : Directory) : (start d : Traffic ι).Sound d where
  calls _ _ h         := by cases h
  apart _ _ _ _ _ h   := by cases h
  entries _ _         := rfl
  placed _ _          := by simp [start]

def update [DecidableEq ι] (t : Traffic ι) (i : ι) (c : Writing) : ι → Option Writing :=
  Function.update t.calls i (some c)

variable {t : Traffic ι} {d directory : Directory} {i j k : ι} {c c' : Writing} {p : Place}
variable {P : Place → Prop}

namespace Sound

theorem length (h : t.Sound d) (hc : t.calls i = some c) (hp : c.Stages p) : 1 < p.length := by
  obtain ⟨staging, hs, rfl⟩ := hp
  exact ((h.calls i c hc).assigned hs).below

theorem apart_from_area (h : t.Sound d) (hc : t.calls i = some c) (hp : c.Stages p) :
    p ≠ [] ∧ p ≠ [stagingArea] := by
  have hl := h.length hc hp
  constructor
  all_goals rintro rfl
  all_goals simp at hl

theorem not_numbered (h : t.Sound d) (hc : t.calls i = some c) (hp : c.Stages p) :
    ¬Numbered t.directory.processId t.directory.staged p := by
  obtain ⟨staging, hs, rfl⟩ := hp
  obtain ⟨j, hj, hn⟩ := ((h.calls i c hc).assigned hs).number
  exact fun hn' => absurd (hn.unique hn') (Nat.ne_of_lt hj)

theorem touches (h : t.Sound d) (ht : Touches P t.directory directory)
    (hc : t.calls i = some c) (hp : ∀ p, c.Stages p → ¬P p) :
    c.write.Sound directory c.name c.got :=
  (h.calls i c hc).touches ht fun staging hs => hp _ ⟨staging, hs, rfl⟩

theorem prepare (h : t.Sound d) (hd : Directory.prepare t.directory false = .ok directory) :
    Sound d { t with directory } := by
  have ht := touches_prepare hd
  constructor
  case calls   =>
    exact fun i c hc => h.touches ht hc fun p hp => not_or.2 (h.apart_from_area hc hp)
  case apart   => exact h.apart
  case entries =>
    intro s hs
    exact (ht.same [s] (by simpa using hs)).trans (h.entries s hs)
  case placed  => exact h.placed

variable [DecidableEq ι]

theorem update_calls (h : t.Sound d) (ht : Touches P t.directory directory)
    (hs : c'.write.Sound directory c'.name c'.got)
    (hp : ∀ j ≠ i, ∀ c, t.calls j = some c → ∀ p, c.Stages p → ¬P p)
    (hj : t.update i c' j = some c) :
    c.write.Sound directory c.name c.got := by
  rw [update, Function.update_apply] at hj
  split at hj
  case isTrue     => cases hj; exact hs
  case isFalse hn => exact h.touches ht hj (hp j hn c hj)

theorem update_apart (h : t.Sound d)
    (hs : ∀ j ≠ i, ∀ c, t.calls j = some c → ∀ p, c.Stages p → ¬c'.Stages p)
    {c₁ c₂ : Writing} (hj : t.update i c' j = some c₁) (hk : t.update i c' k = some c₂)
    (hp : c₁.Stages p) (hp' : c₂.Stages p) : j = k := by
  rw [update, Function.update_apply] at hj hk
  split at hj <;> split at hk
  case isTrue.isTrue   hj' hk' => exact hj'.trans hk'.symm
  case isTrue.isFalse  hj' hk' => cases hj; exact absurd hp (hs k hk' _ hk p hp')
  case isFalse.isTrue  hj' hk' => cases hk; exact absurd hp' (hs j hj' _ hj p hp)
  case isFalse.isFalse hj' hk' => exact h.apart j k _ _ p hj hk hp hp'

theorem exists_update {c₀ : Writing} (h : t.calls i ≠ some c₀) :
    (∃ j, t.update i c' j = some c₀) ↔ c' = c₀ ∨ ∃ j, t.calls j = some c₀ := by
  simp only [update, Function.exists_update_iff t.calls fun _ x => x = some c₀, Option.some.injEq]
  refine or_congr_right <| exists_congr fun j => ⟨And.right, fun hj => ⟨?_, hj⟩⟩
  rintro rfl
  exact h hj

theorem call (h : t.Sound d) (hi : t.calls i = none) (name : String) :
    Sound d { t with calls := t.update i { name } } where
  calls j c hj                 :=
    h.update_calls (.refl (fun _ => False) _) .validating (fun _ _ _ _ _ _ => id) hj
  apart _ _ _ _ _ hj hk hp hp' :=
    h.update_apart (fun _ _ _ _ _ _ ⟨_, hs, _⟩ => nomatch hs) hj hk hp hp'
  entries                      := h.entries
  placed s pieces              := by
    rw [h.placed, exists_update (by rw [hi]; nofun)]
    simp

theorem move (h : t.Sound d) (hi : t.calls i = some c) (hm : c.Moved t.directory directory c')
    (hd : ∀ outcome, c.write = .done outcome → c' = c) : Sound d {
      directory
      calls  := t.update i c'
      placed := if c.renames c' then (c.name, c.got) :: t.placed else t.placed } := by
  constructor
  case calls   =>
    intro j c₁ hj
    refine h.update_calls hm.touches hm.sound (fun k hk c₂ hc p hp => ?_) hj
    rintro (hq | ⟨_, rfl⟩)
    · exact hk (h.apart k i _ _ p hc hi hp hq)
    · exact absurd (h.length hc hp) (by simp)
  case apart   =>
    intro j k c₁ c₂ p hj hk hp hp'
    refine h.update_apart (fun j hj c hc p hp hq => ?_) hj hk hp hp'
    rcases hm.stages p hq with hq | hq
    · exact hj (h.apart j i _ _ p hc hi hp hq)
    · exact h.not_numbered hc hp hq
  case entries =>
    intro s hs
    have hstages : ¬c.Stages [s] := fun hp => absurd (h.length hi hp) (by simp)
    -- Only renaming changes what is in the place of an entry.
    have hsame (hn : ¬(c.renames c' = true ∧ s = c.name)) :
        directory.files.node? [s] = latest? d t.placed s :=
      (hm.touches.same [s] (by simpa [hstages] using hn)).trans (h.entries s hs)
    by_cases hr : c.renames c' = true
    case neg => rw [if_neg hr, hsame fun hn => hr hn.left]
    case pos =>
      rw [if_pos hr, latest?_cons]
      split
      case isTrue hn  => rw [hn, (hm.renamed hr).right]
      case isFalse hn => exact hsame fun hn' => hn hn'.right
  case placed  =>
    intro s pieces
    by_cases hc : c' = c
    case pos =>
      rw [hc, if_neg (by rw [Writing.renames_self]; decide), h.placed, update, ← hi,
        Function.update_eq_self]
    case neg =>
      -- A write that is under way is not among those that are done.
      have hne : t.calls i ≠ some ⟨s, .done (.ok pieces.flatten.length), pieces⟩ := by
        rw [hi]
        rintro ⟨⟩
        exact hc (hd _ rfl)
      rw [exists_update hne, ← h.placed]
      by_cases hr : c.renames c' = true
      case pos =>
        obtain rfl := (hm.renamed hr).left
        rw [if_pos hr, List.mem_cons]
        refine or_congr_left ⟨?_, fun hc => ?_⟩
        · rintro ⟨⟩
          rfl
        · rw [(Writing.mk.inj hc).left, (Writing.mk.inj hc).right.right]
      case neg =>
        rw [if_neg hr, or_iff_right]
        rintro rfl
        exact (hm.stored _ rfl).elim hc hr

end Sound

-- What happens next: the directory is opened once more, a write is begun, or one takes a step.
inductive Act (ι : Type)
  | prepare
  | call (i : ι) (name : String)
  | step (i : ι) (x : Source.Answer)

variable [DecidableEq ι]

def step (t : Traffic ι) : Act ι → Traffic ι
  | .prepare     =>
    match Directory.prepare t.directory false with
    | .ok directory => { t with directory }
    | .error _      => t
  | .call i name =>
    match t.calls i with
    | none   => { t with calls := t.update i { name } }
    | some _ => t
  | .step i x    =>
    match t.calls i with
    | none   => t
    | some c =>
      let (directory, c') := c.step t.directory x
      { directory
        calls  := t.update i c'
        placed := if c.renames c' then (c.name, c.got) :: t.placed else t.placed }

def run (t : Traffic ι) (acts : List (Act ι)) : Traffic ι :=
  acts.foldl step t

theorem Sound.step (h : t.Sound d) (act : Act ι) : (t.step act).Sound d := by
  cases act
  case prepare     =>
    rw [Traffic.step]
    split
    case h_1 hd => exact h.prepare hd
    case h_2    => exact h
  case call i name =>
    rw [Traffic.step]
    split
    case h_1 hi => exact h.call hi name
    case h_2    => exact h
  case step i x    =>
    rw [Traffic.step]
    split
    case h_1      => exact h
    case h_2 c hi =>
      refine h.move hi (Writing.moved (h.calls i c hi) x) fun _ hd => ?_
      exact congrArg Prod.snd (Writing.step_done hd t.directory x)

theorem Sound.run (h : t.Sound d) (acts : List (Act ι)) : (t.run acts).Sound d := by
  induction acts generalizing t
  case nil              => exact h
  case cons act acts hi => exact hi (h.step act)

-- Nobody but the write itself changes what is in its staging file.
theorem Sound.staged (h : t.Sound d) (hi : t.calls i = some c) (hp : c.Stages p) {act : Act ι}
    (ha : ∀ x, act ≠ .step i x) :
    (t.step act).directory.files.node? p = t.directory.files.node? p := by
  cases act
  case prepare     =>
    rw [Traffic.step]
    split
    case h_1 hd => exact (touches_prepare hd).same p (not_or.2 (h.apart_from_area hi hp))
    case h_2    => rfl
  case call j name =>
    rw [Traffic.step]
    split <;> rfl
  case step j x    =>
    rw [Traffic.step]
    split
    case h_1       => rfl
    case h_2 c' hj =>
      refine (Writing.moved (h.calls j c' hj) x).touches.same p ?_
      rintro (hp' | ⟨_, rfl⟩)
      · cases h.apart i j c c' p hi hj hp hp'
        exact ha x rfl
      · exact absurd (h.length hi hp) (by simp)

-- What can be seen of writes at any time: entries that are whole, and staging files that belong to
-- one write each and hold what it has been given, and nothing else.
structure Whole (d : Directory) (t : Traffic ι) : Prop where
  calls   : ∀ i c, t.calls i = some c → c.write.Sound t.directory c.name c.got
  entries : ∀ s ≠ stagingArea, t.directory.files.node? [s] = latest? d t.placed s
  placed  : ∀ s pieces, (s, pieces) ∈ t.placed ↔
    ∃ i, t.calls i = some ⟨s, .done (.ok pieces.flatten.length), pieces⟩
  staged  : ∀ i c p, t.calls i = some c → c.Stages p → ∀ act, (∀ x, act ≠ .step i x) →
    (t.step act).directory.files.node? p = t.directory.files.node? p

theorem whole_of_run (d : Directory) (acts : List (Act ι)) : Whole d ((start d).run acts) :=
  have h := (start_sound d).run acts
  ⟨h.calls, h.entries, h.placed, fun _ _ _ hi hp _ ha => h.staged hi hp ha⟩

end Traffic

end

namespace Traffic

-- Two writes of one entry with a step each in turn, and one that fails in between.
theorem whole_of_run_same_name :
    let both (x : Source.Answer) : List (Act Nat) := [.step 0 x, .step 1 x]
    let all (x : Source.Answer) : List (Act Nat) := both x ++ [.step 2 x]
    let acts : List (Act Nat) := [.call 0 "x", .call 1 "x", .call 2 "x"] ++ all .interrupted ++
      all .interrupted ++ [.step 0 (.data [1]), .step 1 (.data [2]), .step 2 (.data [3]), .prepare,
        .step 2 (.failure (.other "gone"))] ++ both .endOfInput ++
      [.step 1 .interrupted, .step 2 .interrupted, .step 0 .interrupted]
    ∃ d, Directory.prepare { processId := 7 } false = .ok d ∧
      ((start d).run acts).placed = [("x", [[1]]), ("x", [[2]])] ∧ Whole d ((start d).run acts) :=
  ⟨_, rfl, by decide +kernel, whole_of_run _ _⟩

end Traffic

end BitPacking.Archive.Directory
