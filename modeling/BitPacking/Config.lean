import BitPacking.Width

namespace BitPacking

def delimiter : UInt64 :=
  0

structure Config where
  maxValue : UInt64
  -- The number of elements in every sequence; zero stands for sequences that end with a delimiter.
  sequenceLength : UInt32
  containsZero : Bool
  fits : containsZero = true → maxValue.toNat + 1 < UInt64.size
deriving DecidableEq

namespace Config

def effectiveMax (c : Config) : UInt64 :=
  if c.containsZero then c.maxValue + 1 else c.maxValue

def bits (c : Config) : Nat :=
  significantBits c.effectiveMax

def Delimited (c : Config) : Prop :=
  c.sequenceLength = 0

instance (c : Config) : Decidable c.Delimited :=
  inferInstanceAs (Decidable (_ = _))

theorem isValidWidth_bits (c : Config) : IsValidWidth c.bits :=
  isValidWidth_significantBits _

def batch (maxValue : UInt64) (sequenceLength : UInt32) (containsZero : Bool) :
    Logged (Except Error Config) := do
  if h : containsZero = true → maxValue.toNat + 1 < UInt64.size then
    let c : Config := ⟨maxValue, sequenceLength, containsZero, h⟩
    discard (bitLength c.effectiveMax)
    return .ok c
  else
    return .error .maximumOverflows

def delimited (maxValue : UInt64) (containsZero : Bool) : Logged (Except Error Config) :=
  batch maxValue 0 containsZero

def stream (maxValue : UInt64) (containsZero : Bool) : Logged (Except Error Config) :=
  batch maxValue 0 containsZero

-- The stored form of a value. A value that has none is reported as too large, as if it had been
-- stored.
def remap (c : Config) (value : UInt64) : Logged (Except Error UInt64) := do
  if !c.containsZero then
    return .ok value
  else if value.toNat + 1 < UInt64.size then
    return .ok (value + 1)
  else
    .emit (.aboveMaximum value c.effectiveMax)
    return .error (.valueTooLarge value c.bits)

def remapNonDelimiter (c : Config) (value : UInt64) : Logged (Except Error UInt64) := do
  match ← c.remap value with
  | .error e => return .error e
  | .ok stored =>
    if stored = delimiter then
      return .error (.reservedValue value)
    else
      return .ok stored

-- The declared maximum is a promise and not a limit. A stored value above it is reported, and is
-- refused only if the element width cannot hold it.
def checkStored (c : Config) (stored : UInt64) : Logged (Except Error Bool) := do
  if stored ≤ c.effectiveMax then
    return .ok false
  else
    .emit (.aboveMaximum stored c.effectiveMax)
    if c.bits < significantBits stored then
      return .error (.valueTooLarge stored c.bits)
    else
      return .ok true

end Config

-- The value that a stored one stands for; the delimiter itself reads as zero.
def unmap (containsZero : Bool) (raw : UInt64) : UInt64 :=
  if containsZero ∧ raw ≠ 0 then raw - 1 else raw

def Config.unmap (c : Config) (raw : UInt64) : UInt64 :=
  BitPacking.unmap c.containsZero raw

theorem Config.unmap_of_remap {c : Config} {value stored : UInt64}
    (h : (c.remap value).value = .ok stored) : c.unmap stored = value := by
  simp only [Config.remap] at h
  split at h
  · next hz => cases h; simp_all [Config.unmap, BitPacking.unmap]
  next hz =>
    split at h
    · next hv =>
      cases h
      have hne : value + 1 ≠ 0 := fun h0 => by
        have h1 : (value.toNat + 1) % UInt64.size = 0 := congrArg UInt64.toNat h0
        rw [Nat.mod_eq_of_lt hv] at h1
        cases h1
      simp_all [Config.unmap, BitPacking.unmap]
    · cases h

end BitPacking
