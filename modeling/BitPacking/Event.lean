import BitPacking.Error

namespace BitPacking

inductive Level
  | warning
  | error
deriving DecidableEq, Repr

inductive Event
  | zeroMaximum
  | aboveMaximum (value maximum : UInt64)
  | abortedSinkNotFlushed (cause : IoError)
  | streamNotFinished (cause : Error)
  | entryNotStored (entry : String) (cause : Error)
  | entryNotFinished (entry : String) (cause : Error)
  | stagingNotRemoved
deriving DecidableEq, Repr

namespace Event

-- A warning leaves the work as it would be without it. An error tells of work that was given up
-- where no caller was left to be told.
def level : Event → Level
  | zeroMaximum | aboveMaximum .. | abortedSinkNotFlushed _ | stagingNotRemoved => .warning
  | streamNotFinished _ | entryNotStored .. | entryNotFinished .. => .error

def message : Event → String
  | zeroMaximum => "maximum input number is zero"
  | aboveMaximum .. => "trying to store value above the declared maximum"
  | abortedSinkNotFlushed _ => "failed to flush sink of aborted stream"
  | streamNotFinished _ => "failed to finish stream on drop"
  | entryNotStored .. => "failed to store entry on drop"
  | entryNotFinished .. => "failed to finish entry on drop"
  | stagingNotRemoved => "failed to remove staging file"

def isAboveMaximum : Event → Bool
  | aboveMaximum .. => true
  | _ => false

end Event

structure Logged (α : Type) where
  value : α
  events : List Event
deriving DecidableEq, Repr

namespace Logged

def emit (e : Event) : Logged Unit :=
  ⟨(), [e]⟩

instance : Monad Logged where
  pure a := ⟨a, []⟩
  bind x f := let y := f x.value; ⟨y.value, x.events ++ y.events⟩

variable {α β : Type}

@[simp]
theorem value_pure (a : α) : (pure a : Logged α).value = a :=
  rfl

@[simp]
theorem events_pure (a : α) : (pure a : Logged α).events = [] :=
  rfl

@[simp]
theorem value_map (f : α → β) (x : Logged α) : (f <$> x).value = f x.value :=
  rfl

@[simp]
theorem events_map (f : α → β) (x : Logged α) : (f <$> x).events = x.events := by
  simp [Functor.map]

@[simp]
theorem value_bind (x : Logged α) (f : α → Logged β) : (x >>= f).value = (f x.value).value :=
  rfl

@[simp]
theorem events_bind (x : Logged α) (f : α → Logged β) :
    (x >>= f).events = x.events ++ (f x.value).events :=
  rfl

instance : LawfulMonad Logged :=
  LawfulMonad.mk' _
    (fun x => by simp [Functor.map])
    (fun _ _ => by simp [bind, pure])
    (fun _ _ _ => by simp [bind])

def each {σ : Type} (step : σ → α → Logged (Except Error Unit × σ)) (s : σ) (as : List α) :
    Logged (Except Error Unit × σ) :=
  go s as []
where
  go (s : σ) (as : List α) (past : List Event) : Logged (Except Error Unit × σ) :=
    match as with
    | [] => ⟨(.ok (), s), past.reverse⟩
    | a :: as =>
      match step s a with
      | ⟨(.ok _, s), events⟩ => go s as (events.reverse ++ past)
      | ⟨(.error e, s), events⟩ => ⟨(.error e, s), past.reverse ++ events⟩

variable {σ : Type} {step : σ → α → Logged (Except Error Unit × σ)}

theorem each_go (s : σ) (as : List α) (past : List Event) :
    each.go step s as past = ⟨(each step s as).value, past.reverse ++ (each step s as).events⟩ := by
  induction as generalizing s past with
  | nil => simp [each, each.go]
  | cons a as ih =>
    simp only [each, each.go]
    split
    · next s' events _ => rw [ih, ih s' (events.reverse ++ [])]; simp
    · simp

@[simp]
theorem each_nil (s : σ) : each step s [] = pure (.ok (), s) :=
  rfl

@[simp]
theorem each_cons (s : σ) (a : α) (as : List α) :
    each step s (a :: as) = step s a >>= fun
      | (.ok _, s) => each step s as
      | (.error e, s) => pure (.error e, s) := by
  rw [each, each.go]
  split
  · next h => simp [each_go, bind, h]
  · next h => simp [bind, pure, h]

end Logged
end BitPacking
