import BitPacking.Archive.FileTree
import BitPacking.Proofs.Archive.Name

namespace BitPacking.Archive.FileTree

open Name (Idle)

theorem bind_ok {ε α β : Type} {x : Except ε α} {f : α → Except ε β} {b : β}
    (h : x >>= f = .ok b) : ∃ a, x = .ok a ∧ f a = .ok b := by
  cases x
  case error => cases h
  case ok a  => exact ⟨a, rfl, h⟩

variable {t t' : FileTree} {p q : Place} {path rest : List String} {s : String}

@[simp]
theorem node?_set (t : FileTree) (p q : Place) (n : Node) :
    (t.set p n).node? q = if q = p then some n else t.node? q :=
  Table.get?_insert ..

theorem node?_set_self (t : FileTree) (p : Place) (n : Node) : (t.set p n).node? p = some n := by
  rw [node?_set, if_pos rfl]

@[simp]
theorem node?_erase (t : FileTree) (p q : Place) :
    (t.erase p).node? q = if q = p then none else t.node? q :=
  Table.get?_erase ..

@[simp]
theorem lead_set (t : FileTree) (p : Place) (n : Node) : (t.set p n).lead = t.lead :=
  rfl

theorem set_set (t : FileTree) (p : Place) (n n' : Node) : (t.set p n).set p n' = t.set p n' := by
  simp [set, Table.insert, Table.erase, Table.filterKeys]

theorem erase_set (t : FileTree) (p : Place) (n : Node) :
    (t.set p n).erase p = t.erase p := by
  simp [set, erase, Table.insert, Table.erase, Table.filterKeys]

theorem needDirectory_eq_ok_iff : t.needDirectory p = .ok () ↔ t.node? p = some .directory := by
  rw [needDirectory]
  split
  case h_1 h => simp [h]
  case h_2 h => simp [h]
  case h_3 h => simp [h]

theorem needDirectory_congr (h : t'.node? p = t.node? p) :
    t'.needDirectory p = t.needDirectory p := by
  rw [needDirectory, h, needDirectory]

-- The place that a path without two dots leads to, where it leads anywhere.
def place (path : List String) : Place :=
  path.filter (¬Idle ·)

theorem follow_down (hn : ".." ∉ path) (h : t.follow p path = .ok q) :
    q = p ++ place path := by
  induction path generalizing p
  case nil            => cases h; simp [place]
  case cons s rest hi =>
    rw [List.mem_cons, not_or] at hn
    rw [follow] at h
    have ⟨_, _, h⟩ := bind_ok h
    split at h
    case isTrue hs  =>
      have hs : Idle s := hs
      rw [hi hn.right h, place, place, List.filter_cons_of_neg (by simpa using hs)]
    case isFalse hs =>
      have hs : ¬Idle s := hs
      rw [if_neg (Ne.symm hn.left)] at h
      split at h
      case isTrue  => cases h
      case isFalse =>
        rw [hi hn.right h, place, place, List.filter_cons_of_pos (by simpa using hs),
          List.append_assoc]
        rfl

theorem locate_down (hn : ".." ∉ path) (h : t.locate path = .ok p) :
    p = place path := by
  have ⟨_, _, h⟩ := bind_ok h
  exact follow_down hn h

theorem follow_idle_congr (hi : ∀ x ∈ rest, Idle x) (hp : t'.node? p = t.node? p) :
    t'.follow p rest = t.follow p rest := by
  induction rest
  case nil             => rfl
  case cons s rest hi' =>
    have ⟨hs, hr⟩ := List.forall_mem_cons.1 hi
    have hs : s = "" ∨ s = "." := hs
    rw [follow, follow, needDirectory_congr hp, if_pos hs, if_pos hs, hi' hr]

-- A path leads where it did, as long as no directory is lost.
theorem follow_mono (hk : ∀ q, t.node? q = some .directory → t'.node? q = some .directory)
    (h : t.follow p path = .ok q) : t'.follow p path = .ok q := by
  induction path generalizing p
  case nil            => exact h
  case cons s rest hi =>
    rw [follow] at h ⊢
    have ⟨_, hd, h⟩ := bind_ok h
    rw [needDirectory_eq_ok_iff.2 (hk p (needDirectory_eq_ok_iff.1 hd))]
    simp only [bind, Except.bind]
    split at h
    case isTrue hs  => rw [if_pos hs, hi h]
    case isFalse hs =>
      rw [if_neg hs]
      split at h
      case isTrue hu  => rw [if_pos hu, hi h]
      case isFalse hu =>
        rw [if_neg hu]
        split at h
        case isTrue     => cases h
        case isFalse hl => rw [if_neg hl, hi h]

theorem checkPath_congr (h : t'.lead = t.lead) (path : List String) :
    t'.checkPath path = t.checkPath path := by
  rw [checkPath, h, checkPath]

theorem locate_mono (hl : t'.lead = t.lead)
    (hk : ∀ q, t.node? q = some .directory → t'.node? q = some .directory)
    (h : t.locate path = .ok p) : t'.locate path = .ok p := by
  have ⟨_, hc, h⟩ := bind_ok h
  rw [locate, checkPath_congr hl, hc]
  exact follow_mono hk h

theorem directory_set (hp : t.node? p ≠ some .directory) (content : Bytes) :
    (t.set p (.file content)).node? q = some .directory ↔ t.node? q = some .directory := by
  rw [node?_set]
  split
  case isTrue h  => simp [h, hp]
  case isFalse   => rfl

theorem directory_erase (hp : t.node? p ≠ some .directory) :
    (t.erase p).node? q = some .directory ↔
      t.node? q = some .directory := by
  rw [node?_erase]
  split
  case isTrue h  => simp [h, hp]
  case isFalse   => rfl

theorem placeForFile_eq_ok_iff : t.placeForFile path = .ok p ↔
    t.locate path = .ok p ∧ t.node? p.dropLast = some .directory ∧
      t.node? p ≠ some .directory := by
  constructor
  case mp  =>
    intro h
    have ⟨p', hl, h⟩ := bind_ok h
    have ⟨_, hd, h⟩ := bind_ok h
    split at h
    case h_1    => cases h
    case h_2 hn => cases h; exact ⟨hl, needDirectory_eq_ok_iff.1 hd, hn⟩
  case mpr =>
    rintro ⟨hl, hd, hn⟩
    rw [placeForFile, hl]
    simp only [bind, Except.bind, needDirectory_eq_ok_iff.2 hd]

theorem placeForFile_congr (hl : t'.lead = t.lead)
    (h : ∀ q, t'.node? q = some .directory ↔ t.node? q = some .directory) :
    t'.placeForFile path = .ok p ↔ t.placeForFile path = .ok p := by
  have hl : t'.locate path = .ok p ↔ t.locate path = .ok p :=
    ⟨locate_mono hl.symm fun q => (h q).1, locate_mono hl fun q => (h q).2⟩
  rw [placeForFile_eq_ok_iff, placeForFile_eq_ok_iff, hl, h, ne_eq, h]

theorem create_ok (h : t.create path = .ok t') : ∃ p, t.placeForFile path = .ok p ∧
    t' = t.set p (.file []) := by
  have ⟨p, hp, h⟩ := bind_ok h
  cases h
  exact ⟨p, hp, rfl⟩

theorem remove_ok (h : t.remove path = .ok t') : ∃ p content, t.locate path = .ok p ∧
    t.node? p = some (.file content) ∧ t' = t.erase p := by
  have ⟨p, hl, h⟩ := bind_ok h
  split at h
  case h_1 content hn => cases h; exact ⟨p, content, hl, hn, rfl⟩
  all_goals cases h

theorem remove_eq_ok {content : Bytes} (hl : t.locate path = .ok p)
    (hn : t.node? p = some (.file content)) :
    t.remove path = .ok (t.erase p) := by
  rw [remove, hl]
  simp only [bind, Except.bind, hn]
  rfl

theorem read_eq_ok {content : Bytes} (hl : t.locate path = .ok p)
    (hn : t.node? p = some (.file content)) : t.read path = .ok content := by
  rw [read, hl]
  simp only [bind, Except.bind, hn]

theorem read_ok {content : Bytes} (h : t.read path = .ok content) : ∃ p, t.locate path = .ok p ∧
    t.node? p = some (.file content) := by
  have ⟨p, hl, h⟩ := bind_ok h
  split at h
  case h_1 hn => cases h; exact ⟨p, hl, hn⟩
  all_goals cases h

theorem append_eq_set {content : Bytes} (hl : t.locate path = .ok p)
    (hn : t.node? p = some (.file content)) (bytes : Bytes) :
    t.append path bytes = t.set p (.file (content ++ bytes)) := by
  simp only [append, hl, hn]

theorem trim_of_not_slashed {front : List String} (h : trim path = (front, false)) :
    front = path ∧ path.getLast? ≠ some "" := by
  have hl : path.reverse.length ≤ (path.reverse.dropWhile (· = "")).length := by
    simpa [trim] using (congrArg Prod.snd h)
  have he := (List.dropWhile_suffix (l := path.reverse)
    fun s : String => decide (s = "")).eq_of_length_le hl
  refine ⟨?_, ?_⟩
  · have hf := congrArg Prod.fst h
    rw [trim, he, List.reverse_reverse] at hf
    exact hf.symm
  · intro hlast
    rw [← List.head?_reverse] at hlast
    have hz := List.head?_dropWhile_not (fun s : String => decide (s = "")) path.reverse
    rw [he, hlast] at hz
    simp at hz

-- Trees that differ below the topmost directory only.
structure SameTop (t t' : FileTree) : Prop where
  lead  : t'.lead = t.lead
  nodes : ∀ p : Place, p.length ≤ 1 → t'.node? p = t.node? p
  names : t'.fileNames = t.fileNames

theorem SameTop.refl (t : FileTree) : SameTop t t :=
  ⟨rfl, fun _ _ => rfl, rfl⟩

-- A path to a file in the topmost directory.
def Entry (path : List String) : Prop :=
  ∃ s rest, path = s :: rest ∧ ¬Idle s ∧ s ≠ ".." ∧ ∀ x ∈ rest, Idle x

theorem Entry.down (h : Entry path) : ".." ∉ path := by
  have ⟨s, rest, hp, _, hd, hr⟩ := h
  rw [hp, List.mem_cons, not_or]
  exact ⟨Ne.symm hd, fun hm => absurd (hr _ hm) (by decide)⟩

theorem Entry.of_proper (hs : ¬Idle s ∧ s ≠ "..") : Entry [s] :=
  ⟨s, [], rfl, hs.left, hs.right, nofun⟩

-- A file is moved to a name in the topmost directory, and to nothing that has more to it.
theorem rename_ok {source target : List String} (he : Entry target)
    (h : t.rename source target = .ok t') : ∃ s p content, target = [s] ∧
      t.locate source = .ok p ∧ t.node? p = some (.file content) ∧
      t.placeForFile [s] = .ok [s] ∧
      t' = (t.erase p).set [s] (.file content) := by
  rw [rename] at h
  generalize ht : trim target = x at h
  obtain ⟨front, slashed⟩ := x
  obtain ⟨_, _, h⟩ := bind_ok h
  obtain ⟨_, _, h⟩ := bind_ok h
  obtain ⟨_, _, h⟩ := bind_ok h
  obtain ⟨_, _, h⟩ := bind_ok h
  obtain ⟨_, _, h⟩ := bind_ok h
  obtain ⟨_, _, h⟩ := bind_ok h
  split at h
  case isTrue     => cases h
  case isFalse hd =>
    obtain ⟨content, hr, h⟩ := bind_ok h
    split at h
    case isTrue     => cases h
    case isFalse hs =>
      rw [Bool.eq_false_iff.2 hs] at ht
      have ⟨hf, hlast⟩ := trim_of_not_slashed ht
      rw [hf] at hd h
      obtain ⟨p', hp', h⟩ := bind_ok h
      obtain ⟨t'', hm, h⟩ := bind_ok h
      obtain ⟨p, content', hl, hn, rfl⟩ := remove_ok hm
      obtain ⟨p'', hl'', hc⟩ := read_ok hr
      cases hl.symm.trans hl''
      cases hn.symm.trans hc
      cases h
      obtain ⟨s, rest, rfl, hi, hu, hrest⟩ := he
      -- Whatever follows the name would have to be a slash or a dot.
      have hnil : rest = [] := by
        by_contra hne
        obtain ⟨x, hx⟩ := Option.isSome_iff_exists.1 (List.getLast?_isSome.2 hne)
        have hx' : (s :: rest).getLast? = some x := by
          rw [List.getLast?_cons, hx]
          rfl
        rw [hx'] at hd hlast
        rcases hrest x (List.mem_of_getLast? hx) with rfl | rfl
        · exact hlast rfl
        · exact hd (.inl rfl)
      subst hnil
      have hp : p' = [s] := by
        rw [locate_down (Entry.of_proper ⟨hi, hu⟩).down (placeForFile_eq_ok_iff.1 hp').left, place,
          List.filter_cons_of_pos (by simpa using hi)]
        rfl
      exact ⟨s, p, content, rfl, hl, hn, hp ▸ hp', by rw [hp]⟩

-- What is found for an entry is a matter of two places.
theorem Entry.read_congr (he : Entry path) (hlead : t'.lead = t.lead)
    (h₀ : t'.node? [] = t.node? [])
    (h₁ : ∀ s, path.head? = some s → t'.node? [s] = t.node? [s]) : t'.read path = t.read path := by
  have ⟨s, rest, hp, hidle, hd, hr⟩ := he
  have h₁ := h₁ s (by rw [hp]; rfl)
  have hs : ¬(s = "" ∨ s = ".") := hidle
  have hf : t'.follow [s] rest = t.follow [s] rest := follow_idle_congr hr h₁
  have hl : t'.locate path = t.locate path := by
    rw [locate, locate, checkPath_congr hlead, hp, follow, follow, needDirectory_congr h₀,
      if_neg hs, if_neg hs, if_neg hd, if_neg hd, List.nil_append, hf]
  rw [read, read, hl]
  match hx : t.locate path with
  | .error _ => rfl
  | .ok p    =>
    have hp' : p = [s] := by
      rw [locate_down he.down hx, hp, place, List.filter_cons_of_pos (by simpa using hidle),
        List.filter_eq_nil_iff.2 (by simpa using hr)]
    simp only [bind, Except.bind, hp', h₁]

theorem Entry.not_isFile {r : String} (he : Entry (s :: r :: rest)) :
    t.isFile (s :: r :: rest) = false := by
  have ⟨s', rest', hp, hidle, hd, hr⟩ := he
  cases hp
  have hs : ¬(s = "" ∨ s = ".") := hidle
  rw [isFile]
  match hx : t.read (s :: r :: rest) with
  | .error _ => rfl
  | .ok c    =>
    have ⟨p, hl, hc⟩ := bind_ok hx
    have hp : p = [s] := by
      rw [locate_down he.down hl, place, List.filter_cons_of_pos (by simpa using hidle),
        List.filter_eq_nil_iff.2 (by simpa using hr)]
    -- To go on behind the name, it would have to be that of a directory.
    have ⟨_, _, hf⟩ := bind_ok hl
    rw [follow] at hf
    have ⟨_, _, hf⟩ := bind_ok hf
    rw [if_neg hs, if_neg hd] at hf
    split at hf
    case isTrue  => cases hf
    case isFalse =>
      rw [List.nil_append, follow] at hf
      have ⟨_, hdir, _⟩ := bind_ok hf
      rw [hp] at hc
      rw [needDirectory] at hdir
      split at hdir
      case h_1 hn => rw [hn] at hc; cases hc
      case h_2    => cases hdir
      case h_3    => cases hdir

theorem SameTop.read (h : SameTop t t') (he : Entry path) : t'.read path = t.read path :=
  he.read_congr h.lead (h.nodes [] (Nat.zero_le 1)) fun s _ => h.nodes [s] (Nat.le_refl 1)

-- A path to somewhere below the topmost directory.
def Below (path : List String) : Prop :=
  ∀ (t : FileTree) (p : Place), t.locate path = .ok p → 1 < p.length

theorem below_of_place (hd : ".." ∉ path) (h : 1 < (place path).length) : Below path :=
  fun _ _ hl => locate_down hd hl ▸ h

-- The name that a place gives to the list of files.
def topName : Place × Node → Option String
  | ([s], .file _) => some s
  | _              => none

theorem fileNames_eq (t : FileTree) :
    t.fileNames = (t.nodes.pairs.filterMap topName).mergeSort (· ≤ ·) :=
  rfl

theorem topName_eq_some_iff {n : Node} :
    topName (p, n) = some s ↔ p = [s] ∧ ∃ content, n = .file content := by
  match p, n with
  | [], _             => simp [topName]
  | [_], .file _      => simp [topName]
  | [_], .directory   => simp [topName]
  | _ :: _ :: _, _    => simp [topName]

theorem mem_fileNames_iff : s ∈ t.fileNames ↔ ∃ content, t.node? [s] = some (.file content) := by
  rw [fileNames_eq, List.mem_mergeSort, List.mem_filterMap]
  constructor
  case mp  =>
    rintro ⟨⟨p, n⟩, hm, hs⟩
    obtain ⟨rfl, content, rfl⟩ := topName_eq_some_iff.1 hs
    exact ⟨content, Table.mem_pairs_iff.1 hm⟩
  case mpr =>
    rintro ⟨content, hn⟩
    exact ⟨([s], .file content), Table.mem_pairs_iff.2 hn, rfl⟩

theorem nodup_topNames (t : FileTree) : (t.nodes.pairs.filterMap topName).Nodup := by
  rw [List.Nodup, List.pairwise_filterMap]
  refine (List.pairwise_map.1 t.nodes.nodup).imp ?_
  rintro ⟨p, n⟩ ⟨p', n'⟩ hne s hs s' hs' rfl
  exact hne ((topName_eq_some_iff.1 hs).left.trans (topName_eq_some_iff.1 hs').left.symm)

theorem topName_below (hp : 1 < p.length) (n : Node) : topName (p, n) = none := by
  match p with
  | [] | [_]   => simp at hp
  | _ :: _ :: _ => rfl

theorem topNames_erase (hp : 1 < p.length) (ps : List (Place × Node)) :
    (ps.filter (·.1 ≠ p)).filterMap topName = ps.filterMap topName := by
  rw [List.filterMap_filter]
  congr
  funext x
  split
  case isTrue     => rfl
  case isFalse hx =>
    have hx : x.1 = p := by simpa using hx
    exact (topName_below (hx ▸ hp) x.2).symm

theorem sameTop_set (hp : 1 < p.length) (t : FileTree) (n : Node) : SameTop t (t.set p n) where
  lead       := rfl
  nodes q hq := by
    have hne : q ≠ p := fun h => by rw [h] at hq; omega
    rw [node?_set, if_neg hne]
  names      := by
    rw [fileNames_eq, fileNames_eq]
    exact congrArg (List.mergeSort · _)
      ((List.filterMap_cons_none (topName_below hp n)).trans (topNames_erase hp _))

theorem sameTop_erase (hp : 1 < p.length) (t : FileTree) :
    SameTop t (t.erase p) where
  lead       := rfl
  nodes q hq := by
    have hne : q ≠ p := fun h => by rw [h] at hq; omega
    rw [node?_erase, if_neg hne]
  names      := by
    rw [fileNames_eq, fileNames_eq]
    exact congrArg (List.mergeSort · _) (topNames_erase hp _)

theorem sameTop_create (hb : Below path) (h : t.create path = .ok t') : SameTop t t' := by
  have ⟨p, hp, h⟩ := bind_ok h
  have ⟨p', hl, hp⟩ := bind_ok hp
  have ⟨_, _, hp⟩ := bind_ok hp
  cases h
  have hpp : p' = p := by
    split at hp
    all_goals cases hp
    rfl
  exact sameTop_set (hpp ▸ hb t p' hl) t _

theorem sameTop_append (hb : Below path) (t : FileTree) (bytes : Bytes) :
    SameTop t (t.append path bytes) := by
  rw [append]
  split
  case h_2      => exact .refl t
  case h_1 p hp =>
    split
    case h_1 => exact sameTop_set (hb t p hp) t _
    case h_2 => exact .refl t

theorem sameTop_remove (hb : Below path) (h : t.remove path = .ok t') : SameTop t t' := by
  have ⟨p, hp, h⟩ := bind_ok h
  split at h
  all_goals cases h
  exact sameTop_erase (hb t p hp) t

-- Names that a file can have.
structure Proper (s : String) : Prop where
  down  : ¬Idle s ∧ s ≠ ".."
  short : s.utf8ByteSize ≤ nameLimit
  clean : '\x00' ∉ s.toList

theorem follow_proper (hs : Proper s) (hp : t.node? p = some .directory) (rest : List String) :
    t.follow p (s :: rest) = t.follow (p ++ [s]) rest := by
  have hi : ¬(s = "" ∨ s = ".") := hs.down.left
  rw [follow, needDirectory_eq_ok_iff.2 hp, if_neg hi, if_neg hs.down.right,
    if_neg (Nat.not_lt.2 hs.short)]
  rfl

-- Trees in which there is room for the names of two files in a path.
def Shallow (t : FileTree) : Prop :=
  t.lead + (nameLimit + 1 + nameLimit) ≤ pathLimit

instance (t : FileTree) : Decidable t.Shallow :=
  inferInstanceAs (Decidable (_ ≤ _))

theorem checkPath_proper (ht : t.Shallow) (h : ∀ s ∈ path, Proper s) (hl : path.length ≤ 2) :
    t.checkPath path = .ok () := by
  have hc : ¬path.any (·.toList.contains '\x00') = true := by
    simpa using fun s hs => (h s hs).clean
  have hb : ("/".intercalate path).utf8ByteSize ≤ nameLimit + 1 + nameLimit := by
    match path with
    | []        => decide
    | [s]       =>
      have := (h s (by simp)).short
      simp at this ⊢
      omega
    | [s, s']   =>
      have h₁ := (h s (by simp)).short
      have h₂ := (h s' (by simp)).short
      have hsep : "/".utf8ByteSize = 1 := rfl
      simp [hsep] at h₁ h₂ ⊢
      omega
    | _ :: _ :: _ :: _ => simp at hl
  rw [checkPath, if_neg hc, if_neg (Nat.not_lt.2 (Nat.le_trans (Nat.add_le_add_left hb _) ht))]

theorem trim_proper (hs : Proper s) : trim [s] = ([s], false) := by
  simp [trim, (not_or.1 hs.down.left).left]

theorem node?_makeDirectories_go (h : (makeDirectories.go t p []).1 = .ok ()) (q : Place) :
    (makeDirectories.go t p []).2.node? q = if q = p then some .directory else t.node? q := by
  rw [makeDirectories.go] at h ⊢
  split at h
  case h_1 hn =>
    split
    case isTrue hq => rw [hq, hn]
    case isFalse   => rfl
  case h_2    => cases h
  case h_3 hn => exact node?_set ..

theorem makeDirectories_proper (hc : t.checkPath [s] = .ok ()) (hs : Proper s) :
    t.makeDirectories [s] = match t.node? [] with
    | some (.file _) => (.error .notADirectory, t)
    | n?             =>
      makeDirectories.go (if n?.isNone then t.set [] .directory else t) [s] [] := by
  have hi : ¬(s = "" ∨ s = ".") := hs.down.left
  have hdot : s = "." → [] = ([] : List String) → False := fun he _ => hi (.inr he)
  rw [makeDirectories, hc, trim_proper hs]
  dsimp only
  rw [makeDirectories.go.eq_3 _ _ _ _ hdot, if_neg hi]
  match t.node? [] with
  | none | some .directory | some (.file _) =>
    simp only [if_neg hs.down.right, if_neg (Nat.not_lt.2 hs.short), List.nil_append]

theorem lead_makeDirectories_go (t : FileTree) (p : Place) :
    (makeDirectories.go t p []).2.lead = t.lead := by
  rw [makeDirectories.go]
  split <;> rfl

theorem lead_makeDirectories (hs : Proper s) (t : FileTree) :
    (t.makeDirectories [s]).2.lead = t.lead := by
  match hc : t.checkPath [s] with
  | .error _ => simp only [makeDirectories, hc]
  | .ok ()   =>
    rw [makeDirectories_proper hc hs]
    split
    case h_1 => rfl
    case h_2 =>
      rw [lead_makeDirectories_go]
      split <;> rfl

-- Making a directory makes the topmost one too, where that is missing. No file is in the way of
-- either, if this succeeds.
theorem node?_makeDirectories (hs : Proper s) (h : (t.makeDirectories [s]).1 = .ok ()) (q : Place) :
    (t.makeDirectories [s]).2.node? q =
      if q = [] ∨ q = [s] then some .directory else t.node? q := by
  have hc : t.checkPath [s] = .ok () := by
    rw [makeDirectories] at h
    split at h
    case h_1 e   => cases h
    case h_2 hc  => exact hc
  rw [makeDirectories_proper hc hs] at h ⊢
  match hr : t.node? [] with
  | some (.file _)  => rw [hr] at h; cases h
  | some .directory =>
    simp only [hr, Option.isNone_some, Bool.false_eq_true, if_false] at h ⊢
    rw [node?_makeDirectories_go h]
    by_cases hq : q = [] <;> simp [hq, hr]
  | none            =>
    simp only [hr, Option.isNone_none, if_true] at h ⊢
    rw [node?_makeDirectories_go h, node?_set]
    by_cases hq : q = [] <;> simp [hq]

theorem makeDirectories_self (ht : t.Shallow) (hs : Proper s) (h₀ : t.node? [] = some .directory)
    (h₁ : t.node? [s] = some .directory) : t.makeDirectories [s] = (.ok (), t) := by
  rw [makeDirectories_proper (checkPath_proper ht (by simpa using hs) (by simp)) hs, h₀]
  simp only [Option.isNone_some, Bool.false_eq_true, if_false, makeDirectories.go, h₁]

variable {s' : String}

theorem locate_top (ht : t.Shallow) (hs : Proper s) (h₀ : t.node? [] = some .directory) :
    t.locate [s] = .ok [s] := by
  rw [locate, checkPath_proper ht (by simpa using hs) (by simp), follow_proper hs h₀]
  rfl

-- A place for a file in a directory that is in the topmost one.
structure Inside (t : FileTree) (s s' : String) : Prop where
  shallow : t.Shallow
  outer   : Proper s
  inner   : Proper s'
  root    : t.node? [] = some .directory
  area    : t.node? [s] = some .directory

namespace Inside

theorem locate (h : t.Inside s s') : t.locate [s, s'] = .ok [s, s'] := by
  have hc : t.checkPath [s, s'] = .ok () :=
    checkPath_proper h.shallow (by simpa using ⟨h.outer, h.inner⟩) (by simp)
  rw [FileTree.locate, hc, follow_proper h.outer h.root]
  exact follow_proper h.inner h.area []

theorem create (h : t.Inside s s') (hn : t.node? [s, s'] ≠ some .directory) :
    t.create [s, s'] = .ok (t.set [s, s'] (.file [])) := by
  rw [FileTree.create, placeForFile_eq_ok_iff.2 ⟨h.locate, h.area, hn⟩]
  rfl

-- Appending goes to a file, where there is one.
theorem append (h : t.Inside s s') (bytes : Bytes) : t.append [s, s'] bytes = t ∨
    ∃ content, t.append [s, s'] bytes = t.set [s, s'] (.file content) := by
  simp only [FileTree.append, h.locate]
  split
  case h_1 => exact .inr ⟨_, rfl⟩
  case h_2 => exact .inl rfl

theorem remove_ok (h : t.Inside s s') (hr : t.remove [s, s'] = .ok t') : t' = t.erase [s, s'] := by
  have ⟨p, _, hl, _, he⟩ := FileTree.remove_ok hr
  cases hl.symm.trans h.locate
  exact he

variable {name : String}

-- Nothing but the file itself and the place for it is in the way of renaming.
theorem rename_eq (h : t.Inside s s') (hn : Proper name) : t.rename [s, s'] [name] = (do
    let content ← t.read [s, s']
    let p ← t.placeForFile [name]
    return (← t.remove [s, s']).set p (.file content)) := by
  have hc : t.checkPath [s, s'] = .ok () :=
    checkPath_proper h.shallow (by simpa using ⟨h.outer, h.inner⟩) (by simp)
  have hc' : t.checkPath [name] = .ok () :=
    checkPath_proper h.shallow (by simpa using hn) (by simp)
  have hi := not_or.1 hn.down.left
  have htrim := trim_proper hn
  have hlast : ¬([name].getLast? = some "." ∨ [name].getLast? = some "..") := by
    simp [hi.right, hn.down.right]
  have hl₁ : t.locate [s, s'].dropLast = .ok [s] := locate_top h.shallow h.outer h.root
  have hl₀ : t.locate [name].dropLast = .ok [] := by
    rw [List.dropLast_singleton, FileTree.locate, checkPath_proper h.shallow (by simp) (by simp)]
    rfl
  simp only [FileTree.rename, hc, hc', htrim, hl₀, hl₁, needDirectory_eq_ok_iff.2 h.root,
    needDirectory_eq_ok_iff.2 h.area, bind, Except.bind, if_neg hlast]
  rfl

theorem rename (h : t.Inside s s') (hn : Proper name) {content : Bytes}
    (hf : t.node? [s, s'] = some (.file content)) (hd : t.node? [name] ≠ some .directory) :
    t.rename [s, s'] [name] = .ok ((t.erase [s, s']).set [name] (.file content)) := by
  rw [h.rename_eq hn, read_eq_ok h.locate hf,
    placeForFile_eq_ok_iff.2 ⟨locate_top h.shallow hn h.root, h.root, hd⟩,
    remove_eq_ok h.locate hf]
  rfl

theorem rename_ok (h : t.Inside s s') (hn : Proper name) (hr : t.rename [s, s'] [name] = .ok t') :
    ∃ content, t' = (t.erase [s, s']).set [name] (.file content) := by
  have ⟨n, p, content, hn', hl, _, _, he⟩ := FileTree.rename_ok (Entry.of_proper hn.down) hr
  cases hn'
  cases hl.symm.trans h.locate
  exact ⟨content, he⟩

end Inside

-- Trees that differ in files at certain places only.
structure Alters (S : Place → Prop) (t t' : FileTree) : Prop where
  lead  : t'.lead = t.lead
  same  : ∀ p, ¬S p → t'.node? p = t.node? p
  files : ∀ p, S p → t'.node? p ≠ some .directory

variable {S : Place → Prop}

theorem Alters.refl (h : ∀ p, S p → t.node? p ≠ some .directory) : Alters S t t :=
  ⟨rfl, fun _ _ => rfl, h⟩

theorem Alters.set {t₀ : FileTree} (h : Alters S t₀ t) (hp : S p) (content : Bytes) :
    Alters S t₀ (t.set p (.file content)) where
  lead       := h.lead
  same q hq  := by
    have hne : q ≠ p := fun he => hq (he ▸ hp)
    rw [node?_set, if_neg hne, h.same q hq]
  files q hq := by
    rw [node?_set]
    split
    case isTrue  => nofun
    case isFalse => exact h.files q hq

theorem Alters.erase {t₀ : FileTree} (h : Alters S t₀ t) (hp : S p) :
    Alters S t₀ (t.erase p) where
  lead       := h.lead
  same q hq  := by
    have hne : q ≠ p := fun he => hq (he ▸ hp)
    rw [node?_erase, if_neg hne]
    exact h.same q hq
  files q hq := by
    rw [node?_erase]
    split
    case isTrue  => nofun
    case isFalse => exact h.files q hq

end BitPacking.Archive.FileTree
