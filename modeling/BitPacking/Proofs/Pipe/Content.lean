import BitPacking.Proofs.Pipe.Reading

namespace BitPacking.Pipe

variable {p p' : Pipe} {n : Nat} {bytes : Bytes}

def content (p : Pipe) : Bytes :=
  p.rest ++ p.queue.flatMap Message.bytes

-- Nothing but bytes is in the pipe.
structure Clean (p : Pipe) : Prop where
  aborted : p.aborted = false
  queue   : ∀ m ∈ p.queue, ∃ bytes, bytes ≠ [] ∧ m = .chunk bytes

structure SameHands (p p' : Pipe) : Prop where
  writer  : p'.writer = p.writer
  handles : p'.handles = p.handles
  reader  : p'.reader = p.reader

theorem ofCapacity_clean (capacity : Nat) : (ofCapacity capacity).Clean :=
  ⟨rfl, nofun⟩

theorem Clean.push (h : p.Clean) (hb : bytes ≠ []) :
    (p.push (.chunk bytes)).Clean ∧ (p.push (.chunk bytes)).content = p.content ++ bytes := by
  refine ⟨⟨h.aborted, ?_⟩, ?_⟩
  · exact List.forall_mem_append.2 ⟨h.queue, List.forall_mem_singleton.2 ⟨bytes, hb, rfl⟩⟩
  · simp [Pipe.push, content, Message.bytes]

theorem Clean.takes (h : p.Clean) (ht : p.Takes bytes p') :
    p'.Clean ∧ p'.content = p.content ++ bytes ∧ SameHands p p' := by
  cases ht
  case nothing  => exact ⟨h, (List.append_nil _).symm, rfl, rfl, rfl⟩
  case chunk hb =>
    have ⟨hc, he⟩ := h.push hb
    exact ⟨hc, he, rfl, rfl, rfl⟩

-- What a read of a clean pipe gives, to the reader of a source.
inductive Answering (p : Pipe) : Option Source.Answer × Pipe → Prop
  | data {bytes : Bytes} {p' : Pipe} (hb : bytes ≠ []) (hc : p'.Clean) (hh : SameHands p p')
      (he : p.content = bytes ++ p'.content) :
      Answering p (some (.data bytes), p')
  | ended (hc : p.isClosed = true) (he : p.content = []) :
      Answering p (some .endOfInput, p)
  | waiting (hc : p.isClosed = false) (hq : p.queue = []) (he : p.content = []) :
      Answering p (none, { p with waiting := true })

theorem Clean.answering (h : p.Clean) (hn : n ≠ 0) : Answering p (p.answer n) := by
  have htake {bytes : Bytes} (hb : bytes ≠ []) : bytes.take n ≠ [] :=
    fun h => (List.take_eq_nil_iff.1 h).elim hn hb
  match hr : p.read n with
  | (r, p') =>
    have hx := reading_of_eq hr
    cases hx
    case aborted ha                     => rw [h.aborted] at ha; cases ha
    case nothing hz                     => exact absurd hz hn
    case rest hrest                     =>
      have hb := htake hrest
      rw [answer_of_data hr hb]
      refine .data hb ⟨h.aborted, h.queue⟩ ⟨rfl, rfl, rfl⟩ ?_
      rw [content, content, ← List.append_assoc, List.take_append_drop]
    case chunk bytes queue _ _ hrest hq =>
      obtain ⟨bytes', hb', heq⟩ := h.queue (.chunk bytes) (by simp [hq])
      cases heq
      have hb := htake hb'
      rw [answer_of_data hr hb]
      refine .data hb ⟨h.aborted, fun m hm => h.queue m ?_⟩ ⟨rfl, rfl, rfl⟩ ?_
      · exact hq ▸ List.mem_cons_of_mem _ hm
      · simp [content, hrest, hq, Message.bytes, ← List.append_assoc]
    case abort queue _ _ hrest hq       =>
      obtain ⟨_, _, heq⟩ := h.queue .abort (by simp [hq])
      cases heq
    case ended hrest hq hc              =>
      simp only [answer, hr]
      exact .ended hc (by simp [content, hrest, hq])
    case waiting hrest hq hc            =>
      simp only [answer, hr]
      exact .waiting hc hq (by simp [content, hrest, hq])

theorem sameHands_answer (p : Pipe) (n : Nat) : p.SameHands (p.answer n).2 := by
  have hx := p.reading n
  have ha : (p.answer n).2 = (p.read n).2 := by
    rw [answer]
    split
    all_goals next h => rw [h]
  rw [ha]
  generalize (p.read n).1 = r, (p.read n).2 = p' at hx
  cases hx
  all_goals exact ⟨rfl, rfl, rfl⟩

-- The reader of such a pipe does not come to the end of the input, as somebody may still add to it
-- or has aborted it.
structure Guarded (p : Pipe) : Prop where
  filled  : ∀ m ∈ p.queue, m ≠ .chunk []
  endless : p.isClosed = false ∨ .abort ∈ p.queue ∨ p.aborted = true

theorem Guarded.takes (h : p.Guarded) (ht : p.Takes bytes p') : p'.Guarded := by
  cases ht
  case nothing  => exact h
  case chunk hb =>
    refine ⟨List.forall_mem_append.2 ⟨h.filled, ?_⟩, ?_⟩
    · exact List.forall_mem_singleton.2 (by simpa using hb)
    · exact h.endless.imp_right (Or.imp_left (List.mem_append_left _))

theorem Guarded.close (h : p.Guarded) (hh : p.handles ≠ 0) : p.close.Guarded :=
  ⟨h.filled, .inl (by simp [Pipe.close, isClosed, hh])⟩

theorem Guarded.abort (h : p.Guarded) : (p.push .abort).dropHandle.Guarded := by
  refine ⟨List.forall_mem_append.2 ⟨h.filled, List.forall_mem_singleton.2 nofun⟩, .inr (.inl ?_)⟩
  exact List.mem_append_right _ (List.mem_singleton_self _)

theorem Guarded.read {r : Except IoError Bytes} (h : p.Guarded) (hx : Reading p n r p') :
    p'.Guarded ∧ (r = .ok [] → n = 0) := by
  cases hx
  case aborted                      => exact ⟨h, nofun⟩
  case nothing hn                   => exact ⟨h, fun _ => hn⟩
  case rest hn hr                   =>
    refine ⟨⟨h.filled, h.endless⟩, fun he => ?_⟩
    exact (List.take_eq_nil_iff.1 (Except.ok.inj he)).resolve_right hr
  case chunk bytes queue ha _ _ hq  =>
    have hf := hq ▸ h.filled
    refine ⟨⟨fun m hm => hf m (List.mem_cons_of_mem _ hm), ?_⟩, fun he => ?_⟩
    · refine h.endless.imp_right (Or.imp_left fun hm => ?_)
      rw [hq] at hm
      exact (List.mem_cons.1 hm).resolve_left nofun
    · refine (List.take_eq_nil_iff.1 (Except.ok.inj he)).resolve_right ?_
      rintro rfl
      exact hf _ List.mem_cons_self rfl
  case abort queue _ _ _ hq         =>
    have hf := hq ▸ h.filled
    exact ⟨⟨fun m hm => hf m (List.mem_cons_of_mem _ hm), .inr (.inr rfl)⟩, nofun⟩
  case ended ha _ _ hq hc           =>
    rcases h.endless with ho | hm | hb
    · rw [hc] at ho
      cases ho
    · rw [hq] at hm
      cases hm
    · rw [ha] at hb
      cases hb
  case waiting                      => exact ⟨⟨h.filled, h.endless⟩, nofun⟩

theorem Guarded.answer {a : Option Source.Answer} (h : p.Guarded) (ha : p.answer n = (a, p')) :
    p'.Guarded ∧ (a = some .endOfInput → n = 0) := by
  simp only [Pipe.answer] at ha
  split at ha
  case h_3 hr =>
    obtain ⟨hg, hn⟩ := h.read (reading_of_eq hr)
    cases ha
    exact ⟨hg, fun _ => hn rfl⟩
  all_goals
    next hr =>
      obtain ⟨hg, _⟩ := h.read (reading_of_eq hr)
      cases ha
      exact ⟨hg, by simp⟩

end BitPacking.Pipe
