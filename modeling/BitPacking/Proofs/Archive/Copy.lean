import BitPacking.Proofs.Archive.Directory.Write

namespace BitPacking.Archive

-- What is wrong with an entry that is there and cannot be read.
inductive Damaged (name : String) : Error → Prop
  | corrupt  : Damaged name (.corruptEntry name)
  | mismatch : Damaged name (.checksumMismatch name)

theorem Seal.damaged_of_contentOf [Compression] {name : String} {sealed : Bytes} {e : Error}
    (h : contentOf name sealed = .error e) : Damaged name e := by
  rw [contentOf] at h
  split at h
  case isTrue  => cases h; exact .corrupt
  case isFalse =>
    split at h
    case h_1 => cases h; exact .corrupt
    case h_2 =>
      simp only at h
      split at h
      case isTrue  => cases h
      case isFalse => cases h; exact .mismatch

section Copies

variable {σ τ : Type} [Archive σ] [Archive τ]

-- What copying comes to, and the target after it. The source is written to only where it is the
-- target itself.
structure Copies (Obstacle : Source → Error → Prop) (a : σ) (b : τ) (name newName : String)
    (x : Completion Bool × τ) : Prop where
  returns : ∃ outcome, x.1 = .returned outcome
  absent  : x.1 = .returned (.ok false) ↔ contains a name = false
  idle    : x.1 = .returned (.ok false) → x.2 = b
  copied  : x.1 = .returned (.ok true) →
    ∃ content, read a name = .ok content ∧ Stores b newName (.ok content) x.2
  refused : ∀ e, x.1 = .returned (.error e) → SameEntries b x.2 ∧
    (read a name = .error e ∧ Damaged name e ∨
      ∃ content, read a name = .ok content ∧ Obstacle (.ofBytes content) e)

variable {Obstacle : Source → Error → Prop} {a : σ} {b : τ} {name newName : String}

-- It takes a source of which entries can be read unless they are damaged, and a target of which
-- writes are all or nothing.
theorem copies_of_allOrNothing
    (hr : ∀ e, contains a name = true → read a name = .error e → Damaged name e)
    (hw : ∀ source, AllOrNothing (Obstacle source) b newName source (.ok source.supplied)
      (written b newName source)) :
    Copies Obstacle a b name newName (copy a b name newName).value := by
  rw [copy]
  by_cases hc : contains a name = true
  case neg =>
    rw [if_neg hc]
    have hx := Bool.eq_false_iff.2 hc
    exact ⟨⟨_, rfl⟩, ⟨fun _ => hx, fun _ => rfl⟩, fun _ => rfl, by simp, by simp⟩
  case pos =>
    rw [if_pos hc]
    have habsent {x : Completion Bool} (hx : x ≠ .returned (.ok false)) :
        x = .returned (.ok false) ↔ contains a name = false :=
      iff_of_false hx (by rw [hc]; decide)
    rcases hx : read a name with e | content
    case error =>
      refine ⟨⟨_, rfl⟩, habsent (by simp), by simp, by simp, ?_⟩
      rintro _ ⟨⟩
      exact ⟨.refl b, .inl ⟨hx, hr e hc hx⟩⟩
    case ok    =>
      have h := hw (.ofBytes content)
      -- The entry is read before anything is written, so that it does not matter whether this is
      -- the same archive.
      change Copies Obstacle a b name newName
        ((written b newName (.ofBytes content)).1.map fun _ => true,
          (written b newName (.ofBytes content)).2)
      generalize written b newName (.ofBytes content) = x at h
      cases h
      case stored he hs  =>
        rw [Source.supplied_ofBytes] at hs
        simp only [Completion.map, Except.map]
        exact ⟨⟨_, rfl⟩, habsent (by simp), by simp, fun _ => ⟨content, hx, hs⟩, by simp⟩
      case refused ho hs =>
        simp only [Completion.map, Except.map]
        refine ⟨⟨_, rfl⟩, habsent (by simp), by simp, by simp, ?_⟩
        rintro _ ⟨⟩
        exact ⟨hs, .inr ⟨content, hx, ho⟩⟩

end Copies

section Lossless

variable [Compression]

theorem Memory.damaged_of_read {m : Memory} {name : String} {e : Error}
    (hc : Archive.contains m name = true) (hr : Archive.read m name = .error e) :
    Damaged name e := by
  obtain ⟨sealed, hs⟩ := Option.isSome_iff_exists.1 hc
  simp only [Archive.read, Memory.read, hs] at hr
  exact Seal.damaged_of_contentOf hr

theorem Directory.damaged_of_read {d : Directory} {name : String} {e : Error}
    (hc : Archive.contains d name = true) (hr : Archive.read d name = .error e) :
    Damaged name e := by
  rcases hp : entryPath name with _ | path
  case error => simp [Archive.contains, Directory.contains, hp] at hc
  case ok    =>
    rw [contains_of_entryPath hp, FileTree.isFile] at hc
    rcases hs : d.files.read path with _ | sealed
    case error => rw [hs] at hc; cases hc
    case ok    =>
      simp only [Archive.read, Directory.read, hp, bind, Except.bind, hs] at hr
      exact Seal.damaged_of_contentOf hr

variable [Compression.Lossless]

-- Between archives of either kind, and also where both are the same one, with whatever names: an
-- entry is copied as it is read, and where it is not copied nothing changes.
theorem copies_of_copy (m m' : Memory) (d d' : Directory) (name newName : String) :
    Copies (Memory.Obstacle newName) m m' name newName (copy m m' name newName).value ∧
      Copies (Directory.Obstacle d newName) m d name newName (copy m d name newName).value ∧
      Copies (Memory.Obstacle newName) d m name newName (copy d m name newName).value ∧
      Copies (Directory.Obstacle d' newName) d d' name newName (copy d d' name newName).value :=
  ⟨copies_of_allOrNothing (fun _ => Memory.damaged_of_read)
      (Memory.allOrNothing_supplied m' newName),
    copies_of_allOrNothing (fun _ => Memory.damaged_of_read)
      (Directory.allOrNothing_supplied d newName),
    copies_of_allOrNothing (fun _ => Directory.damaged_of_read)
      (Memory.allOrNothing_supplied m newName),
    copies_of_allOrNothing (fun _ => Directory.damaged_of_read)
      (Directory.allOrNothing_supplied d' newName)⟩

end Lossless

-- A copy within an archive, over another entry.
theorem copies_of_copy_within :
    let m : Memory := { entries := (({} : Table String Bytes).insert "a"
      (Seal.ofSource (.ofBytes [1, 2]))).insert "b" (Seal.ofSource (.ofBytes [3])) }
    (copy m m "a" "b").value.1 = .returned (.ok true) ∧
      read (copy m m "a" "b").value.2 "b" = .ok [1, 2] := by
  intro m
  have h := (copies_of_copy m m { processId := 7 } { processId := 7 } "a" "b").left
  have hread : read m "a" = .ok [1, 2] := by
    simp [m, Archive.read, Memory.read, Table.get?_insert]
  obtain ⟨outcome, ho⟩ := h.returns
  rcases outcome with e | b
  case error =>
    rcases (h.refused e ho).right with ⟨hr, -⟩ | ⟨content, -, hobs⟩
    · rw [hread] at hr
      cases hr
    · cases hobs
      case name hn   => cases (show Name.validate "b" = .ok () by decide).symm.trans hn
      case source he => simp at he
  case ok =>
    rcases b with _ | _
    case false => exact absurd (h.absent.1 ho) (by decide)
    case true  =>
      obtain ⟨content, hr, hs⟩ := h.copied ho
      cases hread.symm.trans hr
      exact ⟨ho, hs.read⟩

end BitPacking.Archive
