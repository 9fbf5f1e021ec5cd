import BitPacking.Lz4.Block
import BitPacking.Lz4.Frame.Basic

namespace BitPacking.Lz4.Frame

open Checksum

-- How the content of linked blocks lies in the buffer that it is read through: up to a position
-- from the front on, with some bytes that came before it further behind.
structure Buffer where
  position : Nat := 0
  kept : Nat := 0
  keptLength : Nat := 0
deriving DecidableEq, Repr

namespace Buffer

def window : Nat :=
  64 * 1024

def capacity (limit : Nat) : Nat :=
  2 * limit + window

-- Makes way for a block. Where the buffer is short of room, the last of its content is kept where
-- it is, and the block goes to the front. Else less is kept, as the content at the front makes up
-- for it.
def makeWay (b : Buffer) (limit : Nat) : Buffer :=
  if capacity limit < b.position + limit then
    { kept := b.position - window, keptLength := window }
  else
    let surplus := min b.keptLength (b.position + b.keptLength - window)
    { b with kept := b.kept + surplus, keptLength := b.keptLength - surplus }

def room (b : Buffer) (limit : Nat) : Nat :=
  if b.keptLength = 0 then limit else b.kept - b.position

def advance (b : Buffer) (n : Nat) : Buffer :=
  { b with position := b.position + n }

end Buffer

def decodeEnd (d : Descriptor) (out : Array UInt8) (input : Bytes) : Option (Array UInt8) := do
  if d.contentSize.any (· ≠ out.size) then
    none
  if d.contentChecksum then
    let (check, _) ← Bytes.cut? 4 input
    if Bytes.ofLittleEndian check ≠ (XxHash32.ofBytes out.toList).toNat then
      none
  return out

def cutChecksum? (d : Descriptor) (block input : Bytes) : Option Bytes := do
  if d.blockChecksums then
    let (check, rest) ← Bytes.cut? 4 input
    if Bytes.ofLittleEndian check = (XxHash32.ofBytes block).toNat then some rest else none
  else
    return input

def decodeBlock (d : Descriptor) (b : Buffer) (stored : Bool) (out : Array UInt8) (block : Bytes) :
    Option (Array UInt8) :=
  if stored then
    some (out ++ block.toArray)
  else if d.independent then
    Block.decode out.size (out.size + d.blockLimit) out block
  else
    Block.decode 0 (out.size + b.room d.blockLimit) out block

def cutBlock? (d : Descriptor) (length input : Bytes) : Option (Bytes × Bool × Bytes) := do
  let n := Bytes.ofLittleEndian length
  let (block, rest) ← Bytes.cut? (n % storedBit) input
  if d.blockLimit < block.length then
    none
  return (block, storedBit ≤ n, ← cutChecksum? d block rest)

theorem cutChecksum?_length {d : Descriptor} {block input rest : Bytes}
    (h : cutChecksum? d block input = some rest) : rest.length ≤ input.length := by
  simp only [cutChecksum?] at h
  split at h
  · simp only [bind, Option.bind_eq_some_iff] at h
    obtain ⟨⟨check, rest'⟩, hc, h⟩ := h
    obtain ⟨-, rfl⟩ := Bytes.cut?_eq_some_iff.1 hc
    split at h <;> cases h
    simp
  · cases h; exact Nat.le_refl _

theorem cutBlock?_length {d : Descriptor} {length input block rest : Bytes} {stored : Bool}
    (h : cutBlock? d length input = some (block, stored, rest)) :
    rest.length ≤ input.length := by
  simp only [cutBlock?, bind, Option.bind_eq_some_iff] at h
  obtain ⟨⟨block', input'⟩, hb, h⟩ := h
  obtain ⟨-, rfl⟩ := Bytes.cut?_eq_some_iff.1 hb
  simp only at h
  split at h
  · simp at h
  · simp only [pure, Option.bind_eq_some_iff] at h
    obtain ⟨rest', hr, h⟩ := h
    cases h
    have := cutChecksum?_length hr
    simp; omega

-- A frame that stops where a block or the end mark should start is taken as complete, and so is
-- one that stops at a block without content. Nothing is asked of the bytes behind the end mark.
def decodeBlocks (d : Descriptor) (b : Buffer) (out : Array UInt8) (input : Bytes) :
    Option (Array UInt8) :=
  match _hn : Bytes.cut? 4 input with
  | none => some out
  | some (length, rest) =>
    if length = endMark then
      decodeEnd d out rest
    else
      match _hb : cutBlock? d length rest with
      | none => none
      | some (block, stored, rest) =>
        let b := b.makeWay d.blockLimit
        match decodeBlock d b stored out block with
        | none => none
        | some out' =>
          if out'.size = out.size then some out
          else decodeBlocks d (b.advance (out'.size - out.size)) out' rest
termination_by input.length
decreasing_by
  have := cutBlock?_length _hb
  obtain ⟨hl, rfl⟩ := Bytes.cut?_eq_some_iff.1 _hn
  simp [hl]; omega

-- The content of a frame. An input that is empty, or that stops behind four bytes of whatever kind,
-- is taken as a frame without content.
def decode (input : Bytes) : Option Bytes :=
  if input.isEmpty then
    some []
  else do
    let (front, rest) ← Bytes.cut? magic.length input
    if front = legacyMagic then
      return (← decodeBlocks .legacy {} #[] rest).toList
    if rest.isEmpty then
      return []
    if front ≠ magic then
      none
    let (d, rest) ← Descriptor.decode rest
    return (← decodeBlocks d {} #[] rest).toList

end BitPacking.Lz4.Frame
