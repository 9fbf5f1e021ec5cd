import BitPacking.Proofs.Pipe.Reading

namespace BitPacking.Pipe

open Message

inductive Action
  | write (bytes : Bytes)
  | close
  | abort
  | addHandle
  | abortHandle
  | dropHandle
  | read (n : Nat)
deriving DecidableEq, Repr

structure Session where
  pipe  : Pipe
  -- The messages that were accepted, in the order in which they were sent.
  sent  : List Message := []
  -- The reads that came back, with the length of the buffer, in order.
  reads : List (Nat × Except IoError Bytes) := []

namespace Session

def start (capacity : Nat) : Session :=
  { pipe := .ofCapacity capacity }

-- An action that has to wait does nothing yet, and can be tried again. A handle acts only as long
-- as there is one.
def write (s : Session) (bytes : Bytes) : Session :=
  match s.pipe.write bytes with
  | (.ok _, pipe)    =>
    { s with pipe, sent := if bytes.isEmpty then s.sent else s.sent ++ [.chunk bytes] }
  | (.error _, pipe) => { s with pipe }

def abort (s : Session) : Session :=
  match s.pipe.abort with
  | some pipe => { s with pipe, sent := if s.pipe.writer then s.sent ++ [.abort] else s.sent }
  | none      => s

def abortHandle (s : Session) : Session :=
  if s.pipe.handles = 0 then
    s
  else
    match s.pipe.abortHandle with
    | some pipe => { s with pipe, sent := s.sent ++ [.abort] }
    | none      => s

def read (s : Session) (n : Nat) : Session :=
  match s.pipe.read n with
  | (.error .wouldBlock, pipe) => { s with pipe }
  | (outcome, pipe)            => { s with pipe, reads := s.reads ++ [(n, outcome)] }

def step (s : Session) : Action → Session
  | .write bytes => s.write bytes
  | .close       => { s with pipe := s.pipe.close }
  | .abort       => s.abort
  | .addHandle   => { s with pipe := s.pipe.addHandle.getD s.pipe }
  | .abortHandle => s.abortHandle
  | .dropHandle  => { s with pipe := s.pipe.dropHandle }
  | .read n      => s.read n

def run (s : Session) (actions : List Action) : Session :=
  actions.foldl step s

def pieces (s : Session) : List Bytes :=
  s.reads.filterMap (·.2.toOption)

def delivered (s : Session) : Bytes :=
  s.pieces.flatten

-- The queued chunks that are ahead of the first abort: none of them once the reader has met one.
def pending (s : Session) : List Bytes :=
  if s.pipe.aborted then [] else ahead s.pipe.queue

-- Each piece comes out of a single chunk, from where the pieces before it have left off.
def Placed (chunks pieces : List Bytes) : Prop :=
  ∀ past piece later, pieces = past ++ piece :: later → piece ≠ [] →
    ∃ before front rest after, chunks = before ++ (front ++ piece ++ rest) :: after ∧
      past.flatten = before.flatten ++ front

structure Intact (s : Session) : Prop where
  content : s.delivered ++ s.pipe.rest ++ s.pending.flatten = (ahead s.sent).flatten
  placed  : Placed (ahead s.sent) s.pieces
  ended   : ∀ n ≠ 0, (n, .ok []) ∈ s.reads →
    s.pipe.writer = false ∧ s.pipe.handles = 0 ∧ .abort ∉ s.sent ∧
      s.delivered = s.sent.flatMap Message.bytes
  endless : .abort ∈ s.sent → ∀ n ≠ 0, (s.pipe.read n).1 ≠ .ok []
  failing : ∀ n e, (n, .error e) ∈ s.reads →
    e = .pipeAborted ∧ .abort ∈ s.sent ∧ ∀ n, (s.pipe.read n).1 = .error .pipeAborted

-- Pipes that differ in nothing but in who is there and who waits. Those who are gone stay so.
structure Alike (p p' : Pipe) : Prop where
  queue   : p'.queue = p.queue
  rest    : p'.rest = p.rest
  reader  : p'.reader = p.reader
  aborted : p'.aborted = p.aborted
  closed  : p.isClosed = true → p'.isClosed = true

theorem Alike.refl (p : Pipe) : Alike p p :=
  ⟨rfl, rfl, rfl, rfl, id⟩

inductive Move (s : Session) : Session → Prop
  | idle {pipe : Pipe} (h : Alike s.pipe pipe) : Move s { s with pipe }
  | send {m : Message} {pipe : Pipe} (hc : s.pipe.isClosed = false) (hm : m ≠ .chunk [])
      (h : Alike (s.pipe.push m) pipe) : Move s { s with pipe, sent := s.sent ++ [m] }
  | read {n : Nat} {r : Except IoError Bytes} {pipe : Pipe} (hr : r ≠ .error .wouldBlock)
      (h : Reading s.pipe n r pipe) : Move s { s with pipe, reads := s.reads ++ [(n, r)] }

variable {s s' : Session}

theorem isClosed_of_writer {p : Pipe} (h : p.writer = true) : p.isClosed = false := by
  simp [isClosed, h]

theorem isClosed_of_handles {p : Pipe} (h : p.handles ≠ 0) : p.isClosed = false := by
  simp [isClosed, h]

theorem alike_close (p : Pipe) : Alike p p.close :=
  ⟨rfl, rfl, rfl, rfl, by simp [isClosed, close]⟩

theorem alike_dropHandle (p : Pipe) : Alike p p.dropHandle :=
  ⟨rfl, rfl, rfl, rfl, by simp +contextual [isClosed, dropHandle]⟩

theorem abort_ne_chunk {bytes : Bytes} : Message.abort ≠ .chunk bytes :=
  nofun

theorem move_write (s : Session) (bytes : Bytes) : Move s (s.write bytes) := by
  rw [write, Pipe.write]
  by_cases hb : bytes.isEmpty
  case pos => simpa [hb] using Move.idle (.refl s.pipe)
  case neg =>
    cases hw : s.pipe.writer
    case false => simpa [hb] using Move.idle (.refl s.pipe)
    case true  =>
      have hm : Message.chunk bytes ≠ .chunk [] := by simpa using hb
      rcases s.pipe.send_cases (.chunk bytes) with ⟨_, h⟩ | ⟨_, _, h⟩ | ⟨_, _, h⟩
      · simpa [hb, h] using Move.idle (.refl s.pipe)
      · simpa [hb, h] using Move.send (isClosed_of_writer hw) hm (.refl _)
      · simpa [hb, h] using Move.idle (.refl s.pipe)

theorem move_abort (hr : s.pipe.reader = true) : Move s s.abort := by
  rw [abort, Pipe.abort]
  cases hw : s.pipe.writer
  case false => simpa using Move.idle (.refl s.pipe)
  case true  =>
    rcases s.pipe.send_cases .abort with ⟨h, _⟩ | ⟨_, _, h⟩ | ⟨_, _, h⟩
    · rw [hr] at h
      cases h
    · simpa [sendAbort, h] using Move.send (isClosed_of_writer hw) abort_ne_chunk (alike_close _)
    · simpa [sendAbort, h] using Move.idle (.refl s.pipe)

theorem move_abortHandle (hr : s.pipe.reader = true) : Move s s.abortHandle := by
  rw [abortHandle, Pipe.abortHandle]
  split
  case isTrue    => exact Move.idle (.refl s.pipe)
  case isFalse hh =>
    rcases s.pipe.send_cases .abort with ⟨h, _⟩ | ⟨_, _, h⟩ | ⟨_, _, h⟩
    · rw [hr] at h
      cases h
    · simpa [sendAbort, h] using
        Move.send (isClosed_of_handles hh) abort_ne_chunk (alike_dropHandle _)
    · simpa [sendAbort, h] using Move.idle (.refl s.pipe)

theorem move_addHandle (s : Session) :
    Move s { s with pipe := s.pipe.addHandle.getD s.pipe } := by
  apply Move.idle
  rw [Pipe.addHandle]
  cases hw : s.pipe.writer
  case false => exact .refl s.pipe
  case true  => exact ⟨rfl, rfl, rfl, rfl, by simp [isClosed, hw]⟩

theorem move_read (s : Session) (n : Nat) : Move s (s.read n) := by
  rw [read]
  match hr : s.pipe.read n with
  | (r, pipe) =>
    have h := reading_of_eq hr
    by_cases hb : r = .error .wouldBlock
    case pos =>
      subst hb
      cases h
      exact .idle ⟨rfl, rfl, rfl, rfl, id⟩
    case neg =>
      split
      case h_1 heq   => cases heq; exact absurd rfl hb
      case h_2 _ heq => cases heq; exact .read hb h

theorem move_step (hr : s.pipe.reader = true) (action : Action) : Move s (s.step action) := by
  cases action
  case write bytes => exact move_write s bytes
  case close       => exact .idle (alike_close _)
  case abort       => exact move_abort hr
  case addHandle   => exact move_addHandle s
  case abortHandle => exact move_abortHandle hr
  case dropHandle  => exact .idle (alike_dropHandle _)
  case read n      => exact move_read s n

-- The messages that the reader has taken out of the queue, and what it has made of them.
structure Taken (s : Session) (taken : List Message) : Prop where
  sent    : s.sent = taken ++ s.pipe.queue
  aborted : s.pipe.aborted = true ↔ .abort ∈ taken
  content : s.delivered ++ s.pipe.rest = (ahead taken).flatten
  current : s.pipe.rest = [] ∨ ∃ past front, ahead taken = past ++ [front ++ s.pipe.rest]
  placed  : Placed (ahead taken) s.pieces

-- A pipe that has come to its end.
structure Drained (p : Pipe) : Prop where
  closed  : p.isClosed = true
  aborted : p.aborted = false
  rest    : p.rest = []
  queue   : p.queue = []

structure Sound (s : Session) : Prop where
  reader : s.pipe.reader = true
  filled : ∀ m ∈ s.sent, m ≠ .chunk []
  taken  : ∃ taken, s.Taken taken
  ended  : ∀ n ≠ 0, (n, .ok []) ∈ s.reads → Drained s.pipe
  failed : ∀ n e, (n, .error e) ∈ s.reads → e = .pipeAborted ∧ s.pipe.aborted = true

theorem Placed.mono {chunks chunks' pieces : List Bytes} (h : Placed chunks pieces)
    (hp : chunks <+: chunks') : Placed chunks' pieces := by
  intro past piece later he hn
  have ⟨before, front, rest, after, hc, hf⟩ := h past piece later he hn
  have ⟨more, hm⟩ := hp
  exact ⟨before, front, rest, after ++ more, by simp [← hm, hc], hf⟩

theorem Placed.append {chunks pieces before after : List Bytes} {piece front rest : Bytes}
    (h : Placed chunks pieces) (hc : chunks = before ++ (front ++ piece ++ rest) :: after)
    (hf : pieces.flatten = before.flatten ++ front) : Placed chunks (pieces ++ [piece]) := by
  intro past piece' later he hn
  rcases List.eq_nil_or_concat later with rfl | ⟨later, last, rfl⟩
  · have ⟨hp, hb⟩ := List.append_inj' he rfl
    cases hb
    exact ⟨before, front, rest, after, hc, hp ▸ hf⟩
  · rw [List.concat_eq_append, ← List.cons_append, ← List.append_assoc] at he
    exact h past piece' later (List.append_inj' he rfl).left hn

-- A piece without a byte may stand anywhere.
theorem Placed.append_nil {chunks pieces : List Bytes} (h : Placed chunks pieces) :
    Placed chunks (pieces ++ [[]]) := by
  intro past piece later he hn
  rcases List.eq_nil_or_concat later with rfl | ⟨later, last, rfl⟩
  · cases (List.append_inj' he rfl).right
    exact absurd rfl hn
  · rw [List.concat_eq_append, ← List.cons_append, ← List.append_assoc] at he
    exact h past piece later (List.append_inj' he rfl).left hn

theorem start_sound (capacity : Nat) : Sound (start capacity) where
  reader := rfl
  filled := nofun
  taken  := ⟨[], rfl, by simp [start, ofCapacity], rfl, .inl rfl, by simp [Placed, start, pieces]⟩
  ended  := nofun
  failed := nofun

theorem Sound.idle {pipe : Pipe} (hs : Sound s) (h : Alike s.pipe pipe) :
    Sound { s with pipe } where
  reader := h.reader.trans hs.reader
  filled := hs.filled
  taken  := by
    have ⟨taken, ht⟩ := hs.taken
    refine ⟨taken, ?_, ?_, ?_, ?_, ht.placed⟩
    · exact h.queue.symm ▸ ht.sent
    · exact h.aborted.symm ▸ ht.aborted
    · exact h.rest.symm ▸ ht.content
    · exact h.rest.symm ▸ ht.current
  ended n hn hm := by
    have hd := hs.ended n hn hm
    exact ⟨h.closed hd.closed, h.aborted.trans hd.aborted, h.rest.trans hd.rest,
      h.queue.trans hd.queue⟩
  failed n e hm := ⟨(hs.failed n e hm).left, h.aborted.trans (hs.failed n e hm).right⟩

theorem Sound.send {m : Message} {pipe : Pipe} (hs : Sound s) (hc : s.pipe.isClosed = false)
    (hm : m ≠ .chunk []) (h : Alike (s.pipe.push m) pipe) :
    Sound { s with pipe, sent := s.sent ++ [m] } where
  reader := h.reader.trans hs.reader
  filled := List.forall_mem_append.2 ⟨hs.filled, List.forall_mem_singleton.2 hm⟩
  taken  := by
    have ⟨taken, ht⟩ := hs.taken
    refine ⟨taken, ?_, ?_, ?_, ?_, ht.placed⟩
    · simp [h.queue, push, ht.sent]
    · exact h.aborted.symm ▸ ht.aborted
    · exact h.rest.symm ▸ ht.content
    · exact h.rest.symm ▸ ht.current
  ended n hn hm := by
    have hd := hs.ended n hn hm
    rw [hd.closed] at hc
    cases hc
  failed n e hm := ⟨(hs.failed n e hm).left, h.aborted.trans (hs.failed n e hm).right⟩

section read

variable {taken queue : List Message} {bytes : Bytes} {n : Nat} {r : Except IoError Bytes}
variable {pipe : Pipe}

theorem pieces_ok (s : Session) (pipe : Pipe) (n : Nat) (bytes : Bytes) :
    ({ s with pipe, reads := s.reads ++ [(n, .ok bytes)] } : Session).pieces =
      s.pieces ++ [bytes] := by
  simp [pieces, Except.toOption]

theorem pieces_error (s : Session) (pipe : Pipe) (n : Nat) (e : IoError) :
    ({ s with pipe, reads := s.reads ++ [(n, .error e)] } : Session).pieces = s.pieces := by
  simp [pieces, Except.toOption]

theorem Taken.not_mem (ht : s.Taken taken) (h : s.pipe.aborted = false) : .abort ∉ taken := by
  intro hm
  rw [ht.aborted.2 hm] at h
  cases h

theorem Taken.nothing (ht : s.Taken taken) (n : Nat) :
    Taken { s with reads := s.reads ++ [(n, .ok [])] } taken := by
  refine ⟨ht.sent, ht.aborted, ?_, ht.current, ?_⟩
  · rw [delivered, pieces_ok, List.flatten_append, List.flatten_singleton, List.append_nil]
    exact ht.content
  · rw [pieces_ok]
    exact ht.placed.append_nil

theorem Taken.rest (ht : s.Taken taken) (n : Nat) (hr : s.pipe.rest ≠ []) :
    Taken { s with
        pipe  := { s.pipe with rest := s.pipe.rest.drop n }
        reads := s.reads ++ [(n, .ok (s.pipe.rest.take n))] }
      taken := by
  have ⟨past, front, hc⟩ := ht.current.resolve_left hr
  have hd := ht.content
  refine ⟨ht.sent, ht.aborted, ?_, .inr ⟨past, front ++ s.pipe.rest.take n, ?_⟩, ?_⟩
  · rw [← hd, delivered, pieces_ok, List.flatten_append, List.flatten_singleton, List.append_assoc,
      List.take_append_drop, delivered]
  · rw [hc, List.append_assoc, List.take_append_drop]
  · rw [pieces_ok]
    rw [hc, List.flatten_append, List.flatten_singleton, ← List.append_assoc] at hd
    refine ht.placed.append (?_ : _ = past ++ (front ++ _ ++ s.pipe.rest.drop n) :: []) ?_
    · rw [List.append_assoc, List.take_append_drop]
      exact hc
    · exact List.append_cancel_right hd

-- The pieces so far end where the chunk that is taken begins.
theorem Taken.chunk (ht : s.Taken taken) (n : Nat) (ha : s.pipe.aborted = false)
    (hr : s.pipe.rest = []) (hq : s.pipe.queue = .chunk bytes :: queue) :
    Taken { s with
        pipe  := { s.pipe with queue, rest := bytes.drop n, waiting := false }
        reads := s.reads ++ [(n, .ok (bytes.take n))] }
      (taken ++ [.chunk bytes]) := by
  have hn := ht.not_mem ha
  have hd : s.pieces.flatten = (ahead taken).flatten := by
    rw [← ht.content, hr, List.append_nil, delivered]
  have hp : ahead (taken ++ [.chunk bytes]) = ahead taken ++ [bytes] :=
    ahead_append_of_not_mem hn
  refine ⟨?_, ?_, ?_, .inr ⟨ahead taken, bytes.take n, ?_⟩, ?_⟩
  · rw [ht.sent, hq, List.append_assoc, List.singleton_append]
  · simp [ha, hn]
  · rw [hp, delivered, pieces_ok, List.flatten_append, hd]
    simp
  · rw [hp, List.take_append_drop]
  · rw [pieces_ok, hp]
    refine (ht.placed.mono (List.prefix_append ..)).append
      (?_ : _ = ahead taken ++ ([] ++ _ ++ bytes.drop n) :: []) ?_
    · rw [List.nil_append, List.take_append_drop]
    · rw [hd, List.append_nil]

theorem Taken.abort (ht : s.Taken taken) (n : Nat) (ha : s.pipe.aborted = false)
    (hr : s.pipe.rest = []) (hq : s.pipe.queue = .abort :: queue) :
    Taken { s with
        pipe  := { s.pipe with queue, aborted := true, waiting := false }
        reads := s.reads ++ [(n, .error .pipeAborted)] }
      (taken ++ [.abort]) := by
  have hp : ahead (taken ++ [.abort]) = ahead taken := by
    rw [ahead_append_of_not_mem (ht.not_mem ha), ahead_abort, List.append_nil]
  refine ⟨?_, ?_, ?_, .inl hr, ?_⟩
  · rw [ht.sent, hq, List.append_assoc, List.singleton_append]
  · simp
  · rw [hp, delivered, pieces_error]
    exact ht.content
  · rw [hp, pieces_error]
    exact ht.placed

theorem Taken.aborted_again (ht : s.Taken taken) (n : Nat) :
    Taken { s with reads := s.reads ++ [(n, .error .pipeAborted)] } taken := by
  refine ⟨ht.sent, ht.aborted, ?_, ht.current, ?_⟩
  · rw [delivered, pieces_error]
    exact ht.content
  · rw [pieces_error]
    exact ht.placed

-- Only the last read can have ended the input or failed for the first time.
theorem Sound.recorded {p : Pipe} (hs : Sound s) (hr : p.reader = true)
    (ht : ∃ taken, Taken { s with pipe := p, reads := s.reads ++ [(n, r)] } taken)
    (hd : Drained s.pipe → Drained p) (ha : s.pipe.aborted = true → p.aborted = true)
    (hend : n ≠ 0 → r = .ok [] → Drained p)
    (hfail : ∀ e, r = .error e → e = .pipeAborted ∧ p.aborted = true) :
    Sound { s with pipe := p, reads := s.reads ++ [(n, r)] } where
  reader := hr
  filled := hs.filled
  taken  := ht
  ended k hk hm := by
    cases List.mem_append.1 hm
    case inl hm => exact hd (hs.ended k hk hm)
    case inr hm =>
      have ⟨hn, hr⟩ := Prod.mk.inj (List.mem_singleton.1 hm)
      exact hend (hn ▸ hk) hr.symm
  failed k e hm := by
    cases List.mem_append.1 hm
    case inl hm => exact ⟨(hs.failed k e hm).left, ha (hs.failed k e hm).right⟩
    case inr hm => exact hfail e (Prod.mk.inj (List.mem_singleton.1 hm)).right.symm

theorem take_ne_nil {α : Type} {xs : List α} (hn : n ≠ 0) (h : xs ≠ []) : xs.take n ≠ [] :=
  fun h' => (List.take_eq_nil_iff.1 h').elim hn h

theorem Sound.read (hs : Sound s) (hw : r ≠ .error .wouldBlock) (h : Reading s.pipe n r pipe) :
    Sound { s with pipe, reads := s.reads ++ [(n, r)] } := by
  have ⟨taken, ht⟩ := hs.taken
  cases h
  case aborted h =>
    apply hs.recorded hs.reader ⟨taken, ht.aborted_again n⟩ id id nofun
    intro e he
    cases he
    exact ⟨rfl, h⟩
  case nothing h hn =>
    exact hs.recorded hs.reader ⟨taken, ht.nothing n⟩ id id (absurd hn ·) nofun
  case rest h hn hr =>
    refine hs.recorded (p := { s.pipe with rest := _ }) hs.reader ⟨taken, ht.rest n hr⟩
      ?_ id ?_ nofun
    · exact fun hd => absurd hd.rest hr
    · exact fun _ he => absurd (Except.ok.inj he) (take_ne_nil hn hr)
  case chunk bytes queue h hn hr hq =>
    have hb : bytes ≠ [] := by
      rintro rfl
      exact hs.filled (.chunk []) (by simp [ht.sent, hq]) rfl
    refine hs.recorded (p := { s.pipe with queue, rest := _, waiting := false })
      hs.reader ⟨_, ht.chunk n h hr hq⟩ ?_ id ?_ nofun
    · exact fun hd => nomatch hd.queue.symm.trans hq
    · exact fun _ he => absurd (Except.ok.inj he) (take_ne_nil hn hb)
  case abort queue h hn hr hq =>
    refine hs.recorded (p := { s.pipe with queue, aborted := true, waiting := false })
      hs.reader ⟨_, ht.abort n h hr hq⟩ ?_ (fun _ => rfl) nofun ?_
    · exact fun hd => nomatch hd.queue.symm.trans hq
    · intro e he
      cases he
      exact ⟨rfl, rfl⟩
  case ended h hn hr hq hc =>
    exact hs.recorded hs.reader ⟨taken, ht.nothing n⟩ id id (fun _ _ => ⟨hc, h, hr, hq⟩) nofun
  case waiting => exact absurd rfl hw

end read

theorem Sound.step (hs : Sound s) (action : Action) : Sound (s.step action) := by
  have h := move_step hs.reader action
  generalize s.step action = s' at h
  cases h
  case idle h       => exact hs.idle h
  case send hc hm h => exact hs.send hc hm h
  case read hr h    => exact hs.read hr h

theorem Sound.run (hs : Sound s) (actions : List Action) : Sound (s.run actions) := by
  induction actions generalizing s
  case nil               => exact hs
  case cons action as hi => exact hi (hs.step action)

theorem Sound.ahead_sent (hs : Sound s) :
    ∃ taken, s.Taken taken ∧ ahead s.sent = ahead taken ++ s.pending := by
  have ⟨taken, ht⟩ := hs.taken
  refine ⟨taken, ht, ?_⟩
  rw [ht.sent, pending]
  cases ha : s.pipe.aborted
  case false => exact ahead_append_of_not_mem (ht.not_mem ha)
  case true  => rw [ahead_append_of_mem (ht.aborted.1 ha), if_pos rfl, List.append_nil]

theorem Sound.ended_all (hs : Sound s) {n : Nat} (hn : n ≠ 0) (hm : (n, .ok []) ∈ s.reads) :
    s.pipe.writer = false ∧ s.pipe.handles = 0 ∧ .abort ∉ s.sent ∧
      s.delivered = s.sent.flatMap Message.bytes := by
  have hd := hs.ended n hn hm
  have ⟨taken, ht⟩ := hs.taken
  have hsent : s.sent = taken := by rw [ht.sent, hd.queue, List.append_nil]
  have hna := ht.not_mem hd.aborted
  have hc := hd.closed
  simp only [isClosed, Bool.and_eq_true, Bool.not_eq_true', beq_iff_eq] at hc
  refine ⟨hc.left, hc.right, hsent ▸ hna, ?_⟩
  rw [hsent, ← flatten_ahead hna, ← ht.content, hd.rest, List.append_nil]

theorem Sound.endless (hs : Sound s) {n : Nat} (hn : n ≠ 0) (ha : .abort ∈ s.sent) :
    (s.pipe.read n).1 ≠ .ok [] := by
  intro he
  have hr : s.read n = { s with
      pipe := (s.pipe.read n).2, reads := s.reads ++ [(n, .ok [])] } := by
    rw [Session.read, show s.pipe.read n = (.ok [], (s.pipe.read n).2) from Prod.ext he rfl]
  have hs' := hs.step (.read n)
  rw [Session.step, hr] at hs'
  exact (hs'.ended_all hn (List.mem_append_right _ (List.mem_singleton_self _))).right.right.left ha

theorem intact_of_run (capacity : Nat) (actions : List Action) :
    ((start capacity).run actions).Intact := by
  have hs := (start_sound capacity).run actions
  generalize (start capacity).run actions = s at hs
  have ⟨taken, ht, hp⟩ := hs.ahead_sent
  constructor
  case content => rw [ht.content, hp, List.flatten_append]
  case placed  => exact hp ▸ ht.placed.mono (List.prefix_append ..)
  case ended   => exact fun n hn hm => hs.ended_all hn hm
  case endless => exact fun ha n hn => hs.endless hn ha
  case failing =>
    intro n e hm
    have ⟨he, ha⟩ := hs.failed n e hm
    refine ⟨he, ht.sent ▸ List.mem_append_left _ (ht.aborted.1 ha), fun n => ?_⟩
    rw [Pipe.read, if_pos ha]

example :
    ((start 4).run [.addHandle, .write [1, 2], .close, .abortHandle, .read 8, .read 8]).reads =
      [(8, .ok [1, 2]), (8, .error .pipeAborted)] := by
  decide

end Session
end BitPacking.Pipe
