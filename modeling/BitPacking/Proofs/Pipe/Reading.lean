import BitPacking.Pipe.Answer
import Mathlib.Tactic.Common

namespace BitPacking.Pipe

variable {p p' : Pipe} {n : Nat}

inductive Reading (p : Pipe) (n : Nat) : Except IoError Bytes → Pipe → Prop
  | aborted (h : p.aborted = true) :
      Reading p n (.error .pipeAborted) p
  | nothing (h : p.aborted = false) (hn : n = 0) :
      Reading p n (.ok []) p
  | rest (h : p.aborted = false) (hn : n ≠ 0) (hr : p.rest ≠ []) :
      Reading p n (.ok (p.rest.take n)) { p with rest := p.rest.drop n }
  | chunk {bytes : Bytes} {queue : List Message} (h : p.aborted = false) (hn : n ≠ 0)
      (hr : p.rest = []) (hq : p.queue = .chunk bytes :: queue) :
      Reading p n (.ok (bytes.take n)) { p with queue, rest := bytes.drop n, waiting := false }
  | abort {queue : List Message} (h : p.aborted = false) (hn : n ≠ 0) (hr : p.rest = [])
      (hq : p.queue = .abort :: queue) :
      Reading p n (.error .pipeAborted) { p with queue, aborted := true, waiting := false }
  | ended (h : p.aborted = false) (hn : n ≠ 0) (hr : p.rest = []) (hq : p.queue = [])
      (hc : p.isClosed = true) :
      Reading p n (.ok []) p
  | waiting (h : p.aborted = false) (hn : n ≠ 0) (hr : p.rest = []) (hq : p.queue = [])
      (hc : p.isClosed = false) :
      Reading p n (.error .wouldBlock) { p with waiting := true }

theorem reading (p : Pipe) (n : Nat) : Reading p n (p.read n).1 (p.read n).2 := by
  rw [read]
  split
  case isTrue h  => exact .aborted h
  case isFalse h =>
    have h := Bool.eq_false_iff.2 h
    split
    case isTrue hn  => exact .nothing h hn
    case isFalse hn =>
      split
      case isTrue hr  => exact .rest h hn hr
      case isFalse hr =>
        have hr := not_not.1 hr
        split
        case h_1 hq => exact .chunk h hn hr hq
        case h_2 hq => exact .abort h hn hr hq
        case h_3 hq =>
          split
          case isTrue hc  => exact .ended h hn hr hq hc
          case isFalse hc => exact .waiting h hn hr hq (Bool.eq_false_iff.2 hc)

theorem reading_of_eq {r : Except IoError Bytes} (h : p.read n = (r, p')) : Reading p n r p' := by
  have hr := p.reading n
  rwa [h] at hr

theorem answer_of_data {bytes : Bytes} (h : p.read n = (.ok bytes, p')) (hb : bytes ≠ []) :
    p.answer n = (some (.data bytes), p') := by
  cases bytes
  case nil  => exact absurd rfl hb
  case cons => simp only [answer, h]

def push (p : Pipe) (m : Message) : Pipe :=
  { p with queue := p.queue ++ [m] }

theorem send_cases (p : Pipe) (m : Message) :
    (p.reader = false ∧ p.send m = (.error .pipeReaderGone, p)) ∨
      (p.reader = true ∧ p.hasRoom = true ∧ p.send m = (.ok (), p.push m)) ∨
      (p.reader = true ∧ p.hasRoom = false ∧ p.send m = (.error .wouldBlock, p)) := by
  cases hr : p.reader
  case false => simp [send, hr]
  case true  => cases hh : p.hasRoom <;> simp [send, hr, hh, push]

-- Bytes that a pipe takes are one message, or none where there are no bytes.
inductive Takes (p : Pipe) : Bytes → Pipe → Prop
  | nothing :
      Takes p [] p
  | chunk {bytes : Bytes} (hb : bytes ≠ []) (hr : p.reader = true) (hh : p.hasRoom = true) :
      Takes p bytes (p.push (.chunk bytes))

-- A pipe takes all bytes at a time, or none of them.
theorem writeAll_cases {bytes : Bytes} (hw : p.writer = true) (hb : bytes ≠ []) :
    (p.reader = false ∧ ByteSink.writeAll p bytes = (.error .pipeReaderGone, p)) ∨
      (p.reader = true ∧ p.hasRoom = true ∧
        ByteSink.writeAll p bytes = (.ok (), p.push (.chunk bytes))) ∨
      (p.reader = true ∧ p.hasRoom = false ∧
        ByteSink.writeAll p bytes = (.error .wouldBlock, p)) := by
  match bytes with
  | []      => exact absurd rfl hb
  | b :: bs =>
    have hn : (b :: bs).isEmpty = false := rfl
    rcases p.send_cases (.chunk (b :: bs)) with ⟨hr, hs⟩ | ⟨hr, hh, hs⟩ | ⟨hr, hh, hs⟩
    · refine .inl ⟨hr, ?_⟩
      simp [ByteSink.writeAll, ByteSink.write, write, hw, hs]
    · refine .inr (.inl ⟨hr, hh, ?_⟩)
      simp [ByteSink.writeAll, ByteSink.write, write, hw, hs]
    · refine .inr (.inr ⟨hr, hh, ?_⟩)
      simp [ByteSink.writeAll, ByteSink.write, write, hw, hs]

namespace Message

def ahead : List Message → List Bytes
  | chunk bytes :: ms => bytes :: ahead ms
  | _                 => []

variable {ms ms' : List Message}

@[simp]
theorem ahead_nil : ahead [] = [] :=
  rfl

@[simp]
theorem ahead_chunk (bytes : Bytes) (ms : List Message) :
    ahead (chunk bytes :: ms) = bytes :: ahead ms :=
  rfl

@[simp]
theorem ahead_abort (ms : List Message) : ahead (abort :: ms) = [] :=
  rfl

theorem ahead_append_of_not_mem (h : abort ∉ ms) : ahead (ms ++ ms') = ahead ms ++ ahead ms' := by
  induction ms
  case nil         => rfl
  case cons m _ hi =>
    rw [List.mem_cons, not_or] at h
    cases m
    case chunk bytes => exact congrArg (bytes :: ·) (hi h.right)
    case abort       => exact absurd rfl h.left

theorem ahead_append_of_mem (h : abort ∈ ms) : ahead (ms ++ ms') = ahead ms := by
  induction ms
  case nil         => cases h
  case cons m _ hi =>
    cases m
    case chunk bytes =>
      have h := (List.mem_cons.1 h).resolve_left nofun
      exact congrArg (bytes :: ·) (hi h)
    case abort       => rfl

theorem flatten_ahead (h : abort ∉ ms) : (ahead ms).flatten = ms.flatMap bytes := by
  induction ms
  case nil         => rfl
  case cons m _ hi =>
    rw [List.mem_cons, not_or] at h
    cases m
    case chunk => simp [hi h.right, bytes]
    case abort => exact absurd rfl h.left

end Message

end BitPacking.Pipe
