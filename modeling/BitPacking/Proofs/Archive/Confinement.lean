import BitPacking.Proofs.Archive.Directory.Reserved

namespace BitPacking.Archive

namespace Name

variable {name : String} {s : String} {rest : List String}

theorem segments_eq_splitOn (name : String) :
    segments name = (name.toList.splitOn '/').map .ofList := by
  have hgo (chars past : List Char) : segments.go chars past =
      (chars.splitOnPPrepend (· == '/') past).map .ofList := by
    induction chars generalizing past
    case nil          => rfl
    case cons c cs hi =>
      rw [segments.go]
      split
      case isTrue hc  =>
        rw [hi, List.splitOnPPrepend_cons_pos (by simpa using hc)]
        rfl
      case isFalse hc => rw [hi, List.splitOnPPrepend_cons_neg (by simpa using hc)]
  exact hgo name.toList []

theorem segments_slash (path name : String) :
    segments (path ++ "/" ++ name) = segments path ++ segments name := by
  have hl : (path ++ "/" ++ name).toList = path.toList ++ '/' :: name.toList := by
    simp [String.toList_append]
  rw [segments_eq_splitOn, segments_eq_splitOn, segments_eq_splitOn, hl,
    List.splitOn_append_cons_self, List.map_append]

theorem segments_of_head? (h : name.toList.head? = some '/') :
    ∃ rest, segments name = "" :: rest := by
  obtain ⟨chars, hc⟩ := List.head?_eq_some_iff.1 h
  exact ⟨segments.go chars [], by rw [segments, hc, segments.go, if_pos rfl]; rfl⟩

theorem components_of_segments (h : segments name = s :: rest) :
    components name = components.first s rest ++ rest.flatMap components.later := by
  rw [components, h]

-- Segments that lead down to one place and stay there.
def Level (segments : List String) : Prop :=
  ∃ s rest, segments = s :: rest ∧ s ≠ "" ∧ s ≠ "." ∧ s ≠ ".." ∧ ∀ x ∈ rest, x = "" ∨ x = "."

theorem flatMap_later_of_idle (h : ∀ x ∈ rest, x = "" ∨ x = ".") :
    rest.flatMap components.later = [] :=
  List.flatMap_eq_nil_iff.2 fun x hx => if_pos (h x hx)

theorem validate_eq_ok_iff : validate name = .ok () ↔ Level (segments name) := by
  constructor
  · intro h
    obtain ⟨s, rest, hs, hi, hu, hr⟩ := segments_of_valid h
    obtain ⟨h₀, h₁⟩ := not_or.1 hi
    exact ⟨s, rest, hs, h₀, h₁, hu, hr⟩
  · rintro ⟨s, rest, hs, h₀, h₁, hu, hr⟩
    refine if_pos (isValid_iff.2 ⟨s, ?_⟩)
    rw [components_of_segments hs, flatMap_later_of_idle hr]
    simp [components.first, components.later, h₀, h₁, hu]

theorem validate_eq_error_iff :
    validate name = .error (.invalidEntryName name) ↔ ¬Level (segments name) := by
  rw [← validate_eq_ok_iff, validate]
  split
  case isTrue  => simp
  case isFalse => simp

-- Paths that start over, go up, or go down twice.
def Strays (name : String) : Prop :=
  name.toList.head? = some '/' ∨ ".." ∈ segments name ∨
    ∃ s t, [s, t].Sublist (segments name) ∧ ∀ x ∈ [s, t], x ≠ "" ∧ x ≠ "." ∧ x ≠ ".."

theorem Strays.not_level (h : Strays name) : ¬Level (segments name) := by
  rintro ⟨s, rest, hs, h₀, h₁, hu, hr⟩
  rcases h with ha | hup | ⟨x, y, hxy, hn⟩
  case inl        =>
    obtain ⟨rest', hs'⟩ := segments_of_head? ha
    exact h₀ (List.cons.inj (hs.symm.trans hs')).left
  case inr.inl    =>
    rcases List.mem_cons.1 (hs ▸ hup) with hx | hx
    · exact hu hx.symm
    · exact absurd (hr _ hx) (by decide)
  case inr.inr    =>
    -- The second of two segments is not the first of all.
    have hy : y ∈ rest := by
      rw [hs] at hxy
      cases hxy with
      | cons _ h      => exact h.subset (by simp)
      | cons_cons _ h => exact h.subset (by simp)
    obtain ⟨hy₀, hy₁, -⟩ := hn y (by simp)
    exact (hr y hy).elim hy₀ hy₁

-- Goes on from a path with another one. That takes its place if it starts with a slash.
def join (path name : String) : String :=
  if name.toList.head? = some '/' then name
  else if path = "" ∨ path.toList.getLast? = some '/' then path ++ name
  else path ++ "/" ++ name

theorem first_of_ne_nil (h : rest ≠ []) : components.first s rest =
    if s = "" then [.root] else if s = "." then [.here] else components.later s := by
  have hr : rest.isEmpty = false := by simpa using h
  simp [components.first, hr]

theorem exists_segments (path : String) : ∃ s rest, segments path = s :: rest :=
  List.exists_cons_of_ne_nil (go_ne_nil path.toList [])

theorem segments_append_slash (path : String) : segments (path ++ "/") = segments path ++ [""] := by
  have h := segments_slash path ""
  rwa [String.append_empty] at h

theorem components_append_slash {path : String} (h : path ≠ "") :
    components (path ++ "/") = components path := by
  obtain ⟨s, rest, hs⟩ := exists_segments path
  have hs' : segments (path ++ "/") = s :: (rest ++ [""]) := by rw [segments_append_slash, hs]; rfl
  have hfirst : components.first s (rest ++ [""]) = components.first s rest := by
    by_cases hr : rest = []
    case pos =>
      -- A segment of nothing alone would be the empty path.
      have h₀ : s ≠ "" := by
        rintro rfl
        exact h (eq_of_segments (hr ▸ hs))
      simp [components.first, h₀]
    case neg => rw [first_of_ne_nil hr, first_of_ne_nil (by simp)]
  rw [components_of_segments hs, components_of_segments hs', hfirst, List.flatMap_append]
  exact congrArg _ (List.append_nil _)

theorem components_slash (path name : String) : components (path ++ "/" ++ name) =
    components (path ++ "/") ++ (segments name).flatMap components.later := by
  obtain ⟨s, rest, hs⟩ := exists_segments path
  have hs₁ : segments (path ++ "/") = s :: (rest ++ [""]) := by rw [segments_append_slash, hs]; rfl
  have hs₂ : segments (path ++ "/" ++ name) = s :: (rest ++ segments name) := by
    rw [segments_slash, hs]
    rfl
  have hne : rest ++ segments name ≠ [] := by
    obtain ⟨s', rest', hn⟩ := exists_segments name
    simp [hn]
  rw [components_of_segments hs₁, components_of_segments hs₂, first_of_ne_nil hne,
    first_of_ne_nil (by simp), List.flatMap_append, List.flatMap_append, List.append_assoc,
    List.append_assoc]
  rfl

theorem components_join (h : Level (segments name)) : ∃ s, components name = [.normal s] ∧
    ∀ path, components (join path name) = components path ++ [.normal s] := by
  obtain ⟨s, rest, hs, h₀, h₁, hu, hr⟩ := h
  have hlater : (segments name).flatMap components.later = [.normal s] := by
    rw [hs, List.flatMap_cons, flatMap_later_of_idle hr]
    simp [components.later, h₀, h₁, hu]
  have hname : components name = [.normal s] := by
    rw [← hlater, components_of_segments hs, hs, components.first, if_neg h₀, if_neg h₁]
    rfl
  -- A name that goes down does not start over, so joining appends it.
  have hhead : name.toList.head? ≠ some '/' := by
    intro hx
    obtain ⟨rest', hs'⟩ := segments_of_head? hx
    exact h₀ (List.cons.inj (hs.symm.trans hs')).left
  refine ⟨s, hname, fun path => ?_⟩
  rw [join, if_neg hhead]
  split
  case isTrue hp  =>
    rcases hp with rfl | hp
    case inl =>
      rw [String.empty_append, hname]
      rfl
    case inr =>
      obtain ⟨chars, hc⟩ := List.getLast?_eq_some_iff.1 hp
      have hf : path = .ofList chars ++ "/" := by
        rw [← String.toList_inj, hc]
        simp
      rw [hf, components_slash, hlater]
  case isFalse hp =>
    rw [components_slash, components_append_slash (not_or.1 hp).left, hlater]

end Name

theorem write_refused {σ : Type} [Archive σ] {a : σ} {name : String} {w : Write σ}
    {c : Completion Nat} (hr : request (σ := σ) (begin name) = .turn)
    (ht : turn a (begin name) = pure (a, w)) (hw : request w = .done c) (source : Source) :
    write a name source = ⟨(c, a, source), []⟩ := by
  have hdone : writeOn a w source [] = ⟨(c, a, source), []⟩ := by
    rw [writeOn]
    split
    case h_1 h => rw [hw] at h; cases h; rfl
    case h_2 h => rw [hw] at h; cases h
    case h_3 h => rw [hw] at h; cases h
  rw [write, writeOn]
  split
  case h_1 h => rw [hr] at h; cases h
  case h_2 h => simp only [ht]; exact hdone
  case h_3 h => rw [hr] at h; cases h

section

variable [Compression]

theorem Memory.write_invalid {name : String} {e : Error} (h : Name.validate name = .error e)
    (m : Memory) (source : Source) :
    write m name source = ⟨(.returned (.error e), m, source), []⟩ := by
  refine write_refused rfl (w := Memory.Write.done (.error e)) ?_ rfl source
  simp only [begin, Archive.turn, turn, h]

theorem Directory.write_invalid {name : String} {e : Error} (h : Name.validate name = .error e)
    (d : Directory) (source : Source) :
    write d name source = ⟨(.returned (.error e), d, source), []⟩ := by
  refine write_refused rfl (w := Directory.Write.done (.error e)) ?_ rfl source
  have he : entryPath name = .error e := by rw [entryPath, h]; rfl
  simp only [begin, Archive.turn, turn, he]

-- Just the names that go down once and stay there are valid. Behind any path they lead to what is
-- directly below it, and in a directory to a place in the topmost one. Whatever else is given as a
-- name is refused by archives of both kinds, which stay as they are, and so does the source.
theorem confined_of_validate (name : String) :
    Name.segments name = (name.toList.splitOn '/').map .ofList ∧
    (Name.validate name = .ok () ↔ Name.Level (Name.segments name)) ∧
    (Name.validate name = .ok () → ∃ s, Name.components name = [.normal s] ∧
      (∀ path, Name.components (Name.join path name) = Name.components path ++ [.normal s]) ∧
      ∀ (t : FileTree) p, t.locate (Name.segments name) = .ok p → p = [s]) ∧
    (Name.Strays name → Name.validate name ≠ .ok ()) ∧
    (Name.validate name ≠ .ok () → ∀ source,
      (∀ m : Memory, write m name source =
        ⟨(.returned (.error (.invalidEntryName name)), m, source), []⟩) ∧
      ∀ d : Directory, write d name source =
        ⟨(.returned (.error (.invalidEntryName name)), d, source), []⟩) := by
  refine ⟨Name.segments_eq_splitOn name, Name.validate_eq_ok_iff, fun hv => ?_, fun hs => ?_,
    fun hv source => ?_⟩
  · obtain ⟨s, hn, hj⟩ := Name.components_join (Name.validate_eq_ok_iff.1 hv)
    refine ⟨s, hn, hj, fun t p hp => ?_⟩
    obtain ⟨rest, hseg, hi, hu, hr⟩ := Name.segments_of_components hn
    have he : FileTree.Entry (Name.segments name) := ⟨s, rest, hseg, hi, hu, hr⟩
    rw [FileTree.locate_down he.down hp, hseg, FileTree.place,
      List.filter_cons_of_pos (by simpa using hi), List.filter_eq_nil_iff.2 (by simpa using hr)]
  · exact mt Name.validate_eq_ok_iff.1 hs.not_level
  · have he := Name.validate_eq_error_iff.2 (mt Name.validate_eq_ok_iff.2 hv)
    exact ⟨fun m => m.write_invalid he source, fun d => d.write_invalid he source⟩

end

-- Slashes and dots behind a name lead nowhere, and two dots that undo a step down are two dots.
theorem confined_of_validate_dotted :
    (∀ path, Name.components (Name.join path "a//.") =
      Name.components path ++ [.normal "a"]) ∧
    ∀ (m : Memory) source, write m "a/../b" source =
      ⟨(.returned (.error (.invalidEntryName "a/../b")), m, source), []⟩ := by
  obtain ⟨-, -, hok, -, -⟩ := confined_of_validate "a//."
  obtain ⟨-, -, -, hstray, hrefuse⟩ := confined_of_validate "a/../b"
  obtain ⟨s, hs, hj, -⟩ := hok (by decide)
  have ha : Name.components "a//." = [.normal "a"] := by decide
  cases ha.symm.trans hs
  exact ⟨hj, fun m source => (hrefuse (hstray (.inr (.inl (by decide)))) source).left m⟩

end BitPacking.Archive
