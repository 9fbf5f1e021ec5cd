import BitPacking.Archive.EntryEncoder.Basic

namespace BitPacking.Archive.EntryEncoder

inductive Outcome
  | pushed
  | stored (length : Nat)
  | failed (cause : Error)
  | dropped
deriving DecidableEq, Repr

inductive Sequel
  | fail (cause : Error)
  | report
  -- There is nobody to tell, and a failure goes to the log.
  | logFailure
  | ignore
deriving DecidableEq, Repr

inductive Call
  | pushing (values : List UInt64)
  | finishing
  | dropping
  | aborting (sequel : Sequel)
  | joining (sequel : Sequel)
  | done (outcome : Outcome)
deriving DecidableEq, Repr

variable {σ : Type} [Archive σ]

def Sequel.outcome (name : String) : Sequel → Completion Nat → Logged Outcome
  | fail cause, _ => pure (.failed cause)
  | report, .returned (.ok n) => pure (.stored n)
  | report, .returned (.error e) => pure (.failed e)
  | report, .crashed => pure (.failed .drainCrashed)
  | logFailure, .returned (.ok _) => pure .dropped
  | logFailure, .returned (.error e) => ⟨.dropped, [.entryNotStored name e]⟩
  | logFailure, .crashed => ⟨.dropped, [.entryNotStored name .drainCrashed]⟩
  | ignore, _ => pure .dropped

namespace Call

def left : Call → Nat
  | pushing values => values.length + 4
  | finishing | dropping => 4
  | aborting _ => 3
  | joining _ => 2
  | done _ => 0

-- Pushes a value. A value that is refused takes the whole entry with it.
def push (e : EntryEncoder σ) (value : UInt64) (values : List UInt64) :
    Option (Logged (Call × EntryEncoder σ)) :=
  match e.encoder.push e.pipe value with
  | ⟨(.error (.io .wouldBlock), _), _⟩ => none
  | ⟨(.ok _, encoder, pipe), events⟩ => some ⟨(pushing values, { e with encoder, pipe }), events⟩
  | ⟨(.error cause, encoder, pipe), events⟩ =>
    some ⟨(aborting (.fail cause), { e with encoder, pipe }), events⟩

-- Ends the stream. With the abort handle gone, the drain finds the end of its input.
def finish (e : EntryEncoder σ) : Option (Except Error Unit × EntryEncoder σ) :=
  match e.encoder.finish e.pipe with
  | (.error (.io .wouldBlock), _) => none
  | (.ok _, encoder, pipe) => some (.ok (), { e with encoder, pipe := pipe.dropHandle })
  | (.error cause, encoder, pipe) => some (.error cause, { e with encoder, pipe })

def step (e : EntryEncoder σ) : Call → Option (Logged (Call × EntryEncoder σ))
  | pushing [] => some (pure (done .pushed, e))
  | pushing (value :: values) => push e value values
  | finishing => do
    match ← finish e with
    | (.ok _, e) => some (pure (joining .report, e))
    | (.error cause, e) => some (pure (aborting (.fail cause), e))
  | dropping =>
    if e.isLive then do
      match ← finish e with
      | (.ok _, e) => some (pure (joining .logFailure, e))
      | (.error cause, e) => some ⟨(aborting .ignore, e), [.entryNotFinished e.name cause]⟩
    else
      some (pure (done .dropped, e))
  | aborting sequel =>
    if e.pipe.handles = 0 then
      some (pure (joining sequel, e))
    else do
      some (pure (joining sequel, { e with pipe := ← e.pipe.abortHandle }))
  | joining sequel =>
    match e.drain with
    | .running _ => none
    | .ended c => some do
      return (done (← sequel.outcome e.name c), { e with drain := .joined })
    | .joined => some do
      return (done (← sequel.outcome e.name (.returned (.ok 0))), e)
  | done _ => none

theorem left_step {c c' : Call} {e e' : EntryEncoder σ} {events : List Event}
    (h : c.step e = some ⟨(c', e'), events⟩) : c'.left < c.left := by
  cases c with
  | pushing values =>
    cases values with
    | nil => cases h; simp [left]
    | cons value values =>
      simp only [step, push] at h
      split at h <;> cases h <;> simp [left]
  | finishing =>
    simp only [step, bind, Option.bind_eq_some_iff] at h
    obtain ⟨⟨r, e₁⟩, -, h⟩ := h
    split at h <;> cases h <;> simp [left]
  | dropping =>
    simp only [step, bind] at h
    split at h
    · simp only [Option.bind_eq_some_iff] at h
      obtain ⟨⟨r, e₁⟩, -, h⟩ := h
      split at h <;> cases h <;> simp [left]
    · cases h; simp [left]
  | aborting sequel =>
    simp only [step, bind] at h
    split at h
    · cases h; simp [left]
    · simp only [Option.bind_eq_some_iff] at h
      obtain ⟨p, -, h⟩ := h
      cases h; simp [left]
  | joining sequel =>
    simp only [step] at h
    split at h <;> cases h <;> simp [left]
  | done => cases h

end Call

def callOn (s : σ) (e : EntryEncoder σ) (c : Call) (past : List Event) :
    Logged (Call × σ × EntryEncoder σ) :=
  match _h : c.step e with
  | some ⟨(c', e'), events⟩ => callOn s e' c' (events.reverse ++ past)
  | none =>
    match settle s e with
    | ⟨(s, e), events⟩ =>
      let past := events.reverse ++ past
      match _h : c.step e with
      | some ⟨(c', e'), events⟩ => callOn s e' c' (events.reverse ++ past)
      | none => ⟨(c, s, e), past.reverse⟩
termination_by c.left
decreasing_by all_goals exact Call.left_step ‹_›

-- Carries out a call. It has an outcome unless both sides wait for each other.
def call (s : σ) (e : EntryEncoder σ) (c : Call) : Logged (Option Outcome × σ × EntryEncoder σ) := do
  match ← callOn s e c [] with
  | (.done outcome, s, e) => return (some outcome, s, e)
  | (_, s, e) => return (none, s, e)

def push (s : σ) (e : EntryEncoder σ) (value : UInt64) :
    Logged (Option Outcome × σ × EntryEncoder σ) :=
  call s e (.pushing [value])

def extend (s : σ) (e : EntryEncoder σ) (values : List UInt64) :
    Logged (Option Outcome × σ × EntryEncoder σ) :=
  call s e (.pushing values)

def finish (s : σ) (e : EntryEncoder σ) : Logged (Option Outcome × σ × EntryEncoder σ) :=
  call s e .finishing

def drop (s : σ) (e : EntryEncoder σ) : Logged (Option Outcome × σ × EntryEncoder σ) :=
  call s e .dropping

end BitPacking.Archive.EntryEncoder
