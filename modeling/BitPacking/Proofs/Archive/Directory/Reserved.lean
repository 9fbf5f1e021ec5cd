import BitPacking.Proofs.Archive.Directory.Write

namespace BitPacking.Archive

namespace Name

variable {name : String}

theorem isValid_iff : isValid name = true ↔ ∃ s, components name = [.normal s] := by
  rw [isValid]
  split
  case h_1 s hs => simp [hs]
  case h_2 hs   => simpa using hs

-- The one component of a name comes first, and what follows leads nowhere.
theorem segments_of_components {s : String} (h : components name = [.normal s]) :
    ∃ rest, segments name = s :: rest ∧ ¬Idle s ∧ s ≠ ".." ∧ ∀ x ∈ rest, Idle x := by
  have hv : validate name = .ok () := if_pos (isValid_iff.2 ⟨s, h⟩)
  obtain ⟨s', rest, hs, hi, hu, hr⟩ := segments_of_valid hv
  obtain ⟨h₀, h₁⟩ := not_or.1 hi
  rw [components, hs] at h
  simp only [components.first, components.later, if_neg h₀, if_neg h₁, if_neg hu,
    if_neg (show ¬(s' = "" ∨ s' = ".") from hi)] at h
  cases (List.cons.inj h).left
  exact ⟨rest, hs, hi, hu, hr⟩

end Name

namespace Directory

open FileTree (Entry place)
open Name (Idle)

variable {d : Directory} {name : String} {s : String}

theorem entryPath_of_components (hc : Name.components name = [.normal s])
    (hn : name ≠ stagingArea) : entryPath name = .ok (Name.segments name) := by
  have hv : Name.validate name = .ok () := if_pos (Name.isValid_iff.2 ⟨s, hc⟩)
  rw [entryPath, hv]
  exact if_neg hn

theorem entryPath_of_not (h : (¬∃ s, Name.components name = [.normal s]) ∨ name = stagingArea) :
    entryPath name = .error (.invalidEntryName name) := by
  rw [entryPath, Name.validate]
  by_cases hv : Name.isValid name
  case pos =>
    rw [if_pos hv]
    exact if_pos (h.resolve_left fun hn => hn (Name.isValid_iff.1 hv))
  case neg => rw [if_neg hv]; rfl

-- Whether a name, taken as a path, leads to the staging area or to something in it.
def LeadsToStaging (name : String) : Prop :=
  Name.components stagingArea <+: Name.components name

instance (name : String) : Decidable (LeadsToStaging name) :=
  inferInstanceAs (Decidable (_ <+: _))

section

variable [Compression]

theorem refused_of_entryPath {e : Error} (h : entryPath name = .error e) (d : Directory)
    (source : Source) : d.contains name = false ∧ d.read name = .error e ∧
      written d name source = (.returned (.error e), d) := by
  refine ⟨by rw [contains, h], by rw [read, h]; rfl, ?_⟩
  have hw := wrote d name source
  generalize written d name source = x at hw
  cases hw
  case invalid hn        => cases h.symm.trans hn; rfl
  case unstaged hn _ _   => cases h.symm.trans hn
  case failed hn _ _     => cases h.symm.trans hn
  case unplaced hn _ _ _ => cases h.symm.trans hn
  case stored hn _ _ _   => cases h.symm.trans hn

-- Where anything stands behind the one component of a name, the file system finds no file.
theorem read_of_components (hc : Name.components name = [.normal s]) (hn : name ≠ s)
    (he : entryPath name = .ok (Name.segments name)) (d : Directory) :
    d.contains name = false ∧
      (d.read name = .error (.entryNotFound name) ∨ ∃ e, d.read name = .error (.io e)) := by
  have hf : d.files.isFile (Name.segments name) = false := by
    obtain ⟨rest, hs, hi, hu, hr⟩ := Name.segments_of_components hc
    rcases rest with _ | ⟨r, rest⟩
    case nil  => exact absurd (Name.eq_of_segments hs) hn
    case cons =>
      rw [hs]
      exact Entry.not_isFile ⟨s, r :: rest, rfl, hi, hu, hr⟩
  refine ⟨by rw [contains, he]; exact hf, ?_⟩
  rw [FileTree.isFile] at hf
  rw [read, he]
  simp only [bind, Except.bind]
  split
  case h_1 hr    => rw [hr] at hf; cases hf
  case h_2       => exact .inl rfl
  case h_3 e _ _ => exact .inr ⟨e, rfl⟩

theorem written_of_components (hc : Name.components name = [.normal s]) (hn : name ≠ s)
    (he : entryPath name = .ok (Name.segments name)) (d : Directory) (source : Source) :
    (∃ e, (written d name source).1 = .returned (.error (.io e))) ∧
      SameEntries d (written d name source).2 := by
  have hw := d.allOrNothing name source
  generalize written d name source = x at hw
  cases hw
  case stored d' _ hs =>
    have hx := (d'.read_of_components hc hn he).left
    cases hx.symm.trans hs.contains
  case refused ho hs  =>
    cases ho
    case name h => cases he.symm.trans h
    all_goals exact ⟨⟨_, rfl⟩, hs⟩

theorem written_of_placeForFile_error {entry : List String} {e : IoError}
    (he : entryPath name = .ok entry)
    (hp : d.files.placeForFile (d.stagingPath name) = .error e) (source : Source) :
    (written d name source).1 = .returned (.error (.io e)) := by
  have hw := wrote d name source
  generalize written d name source = x at hw
  cases hw
  case invalid hn         => cases he.symm.trans hn
  case unstaged hc _      =>
    rw [FileTree.create, hp] at hc
    cases hc
    rfl
  case failed hp' _       => cases hp.symm.trans hp'
  case unplaced hp' _ _   => cases hp.symm.trans hp'
  case stored hp' _ _     => cases hp.symm.trans hp'

-- The spellings of the staging area are refused one way or the other, but as names only that which
-- it was made with. Whatever leads to something in it is no name.
theorem invalidEntryName_iff_of_staging (h : LeadsToStaging name) (d : Directory)
    (source : Source) :
    (d.read name = .error (.invalidEntryName name) ↔
      name = stagingArea ∨ Name.components name ≠ Name.components stagingArea) ∧
    ((written d name source).1 = .returned (.error (.invalidEntryName name)) ↔
      name = stagingArea ∨ Name.components name ≠ Name.components stagingArea) ∧
    (∀ entry, entryPath name = .ok entry → place entry = [stagingArea]) ∧
    d.contains name = false ∧ (∃ e, d.read name = .error e) ∧
    (∃ e, (written d name source).1 = .returned (.error e)) ∧
    SameEntries d (written d name source).2 ∧ d.OnlyClears name (written d name source).2.files := by
  have hc : Name.components stagingArea = [.normal stagingArea] := by decide
  have hclears := (wrote d name source).onlyClears
  by_cases hx : name = stagingArea ∨ Name.components name ≠ Name.components stagingArea
  case pos =>
    have he : entryPath name = .error (.invalidEntryName name) := by
      refine entryPath_of_not (hx.symm.imp_left fun hne ⟨s, hs⟩ => hne ?_)
      rw [LeadsToStaging, hs, hc, List.cons_prefix_cons] at h
      rw [hs, hc, h.left]
    obtain ⟨hf, hr, hw⟩ := refused_of_entryPath he d source
    rw [hw] at hclears ⊢
    refine ⟨iff_of_true hr hx, iff_of_true rfl hx, fun entry ho => ?_, hf, ⟨_, hr⟩, ⟨_, rfl⟩,
      .refl d, hclears⟩
    cases he.symm.trans ho
  case neg =>
    -- Another spelling of the staging area, which only the file system refuses.
    obtain ⟨hn, hs⟩ := not_or.1 hx
    have hs := (not_not.1 hs).trans hc
    have he := entryPath_of_components hs hn
    obtain ⟨hf, hr⟩ := d.read_of_components hs hn he
    obtain ⟨⟨e, hw⟩, hsame⟩ := written_of_components hs hn he d source
    refine ⟨iff_of_false ?_ hx, iff_of_false ?_ hx, fun entry ho => ?_, hf, ?_, ⟨_, hw⟩, hsame,
      hclears⟩
    · rcases hr with hr | ⟨e, hr⟩ <;> rw [hr] <;> exact nofun
    · rw [hw]
      exact nofun
    · cases he.symm.trans ho
      obtain ⟨rest, hseg, hi, -, hr⟩ := Name.segments_of_components hs
      rw [hseg, place, List.filter_cons_of_pos (by simpa using hi),
        List.filter_eq_nil_iff.2 (by simpa using hr)]
    · rcases hr with hr | ⟨e, hr⟩
      · exact ⟨_, hr⟩
      · exact ⟨_, hr⟩

end

-- A slash and a dot make another spelling.
theorem invalidEntryName_iff_of_staging_dotted :
    ∃ d, prepare { processId := 7 } false = .ok d ∧
      d.read ".staging/." ≠ .error (.invalidEntryName ".staging/.") ∧
      (∃ e, d.read ".staging/." = .error e) ∧
      SameEntries d (written d ".staging/." (.ofBytes [120])).2 := by
  obtain ⟨d, hd⟩ : ∃ d, prepare { processId := 7 } false = .ok d := ⟨_, rfl⟩
  obtain ⟨hr, -, -, -, he, -, hs, -⟩ := invalidEntryName_iff_of_staging
    (show LeadsToStaging ".staging/." from by decide) d (.ofBytes [120])
  exact ⟨d, hd, fun h => absurd (hr.1 h) (by decide), he, hs⟩

-- With a slash behind it, the name of the staging area is let through, up to the file system.
theorem not_reserved_slashed :
    entryPath ".staging/" = .ok [".staging", ""] ∧ LeadsToStaging ".staging/" ∧
      ∃ d, prepare { processId := 7 } false = .ok d ∧
        d.read ".staging/" = .error (.io .isADirectory) ∧
        (written d ".staging/" (.ofBytes [120])).1 = .returned (.error (.io .notFound)) := by
  have he : entryPath ".staging/" = .ok [".staging", ""] := by decide
  refine ⟨he, by decide, _, rfl, by decide, ?_⟩
  exact written_of_placeForFile_error he (by decide +kernel) _

end Directory
end BitPacking.Archive
