import BitPacking.Bytes
import Std.Data.HashMap

namespace BitPacking.Lz4.Block

def minCopy : Nat :=
  4

-- A length has four bits in the first byte of its sequence. Where these are all set, bytes follow
-- that are added to it, up to and including the first one below 255.
def readExtension (length : Nat) : Bytes → Option (Nat × Bytes)
  | [] => none
  | b :: rest =>
    if b = 255 then readExtension (length + 255) rest else some (length + b.toNat, rest)

def readLength (nibble : Nat) (input : Bytes) : Option (Nat × Bytes) :=
  if nibble = 15 then readExtension 15 input else some (nibble, input)

def maxOffset : Nat :=
  65535

def readLiterals (token : UInt8) (input : Bytes) : Option (Bytes × Bytes) := do
  let (length, input) ← readLength (token.toNat / 16) input
  Bytes.cut? length input

def copyBack (out : Array UInt8) (offset : Nat) : (count : Nat) → Array UInt8
  | 0 => out
  | n + 1 => copyBack (out.push (out.getD (out.size - offset) 0)) offset n

theorem readExtension_length {length n : Nat} {input rest : Bytes}
    (h : readExtension length input = some (n, rest)) : rest.length < input.length := by
  fun_induction readExtension length input with
  | case1 => cases h
  | case2 length rest' ih => have := ih h; simp; omega
  | case3 => cases h; simp

theorem readLength_length {nibble n : Nat} {input rest : Bytes}
    (h : readLength nibble input = some (n, rest)) : rest.length ≤ input.length := by
  unfold readLength at h
  split at h
  · exact Nat.le_of_lt (readExtension_length h)
  · cases h; exact Nat.le_refl _

theorem readLiterals_length {token : UInt8} {input literals rest : Bytes}
    (h : readLiterals token input = some (literals, rest)) : rest.length ≤ input.length := by
  simp only [readLiterals, bind, Option.bind_eq_some_iff] at h
  obtain ⟨⟨n, input'⟩, hn, hc⟩ := h
  have := readLength_length hn
  obtain ⟨-, rfl⟩ := Bytes.cut?_eq_some_iff.1 hc
  simp at this; omega

-- Appends what the sequences in `input` stand for. Copies reach back no further than `floor`, and
-- the output grows no longer than `limit`.
def decode (floor limit : Nat) (out : Array UInt8) (input : Bytes) : Option (Array UInt8) :=
  match input with
  | [] => none
  | token :: input =>
    match _hl : readLiterals token input with
    | none => none
    | some (literals, rest) =>
      let out := out ++ literals.toArray
      if limit < out.size then
        none
      else
        match rest with
        | [] => some out
        | [_] => none
        | low :: high :: rest =>
          let offset := Bytes.ofLittleEndian [low, high]
          match _hc : readLength (token.toNat % 16) rest with
          | none => none
          | some (length, rest) =>
            let count := length + minCopy
            if offset = 0 ∨ out.size < floor + offset ∨ limit < out.size + count then
              none
            else
              decode floor limit (copyBack out offset count) rest
termination_by input.length
decreasing_by
  have := readLiterals_length _hl
  have := readLength_length _hc
  simp at *; omega

structure Sequence where
  literals : Bytes
  offset : Nat
  count : Nat

def writeExtension (n : Nat) : Bytes :=
  if n < 255 then [.ofNat n] else 255 :: writeExtension (n - 255)

def writeLength (n : Nat) : Bytes :=
  if n < 15 then [] else writeExtension (n - 15)

def token (literals copy : Nat) : UInt8 :=
  .ofNat (min literals 15 * 16 + min copy 15)

def Sequence.encode (s : Sequence) : Bytes :=
  let copy := s.count - minCopy
  token s.literals.length copy :: writeLength s.literals.length ++ s.literals ++
    Bytes.littleEndian 2 s.offset ++ writeLength copy

def encodeLast (literals : Bytes) : Bytes :=
  token literals.length 0 :: writeLength literals.length ++ literals

def wordAt (data : Array UInt8) (i : Nat) : Nat :=
  Bytes.ofLittleEndian (data.extract i (i + minCopy)).toList

def commonLength (data : Array UInt8) (stop i j : Nat) : Nat :=
  if j < stop ∧ data[i]? = data[j]? then commonLength data stop (i + 1) (j + 1) + 1 else 0
termination_by stop - j

-- Copies start no later than twelve bytes before the end and leave the last five bytes alone, as
-- readers may rely on it.
-- The sequences from position `i` on, with the literals from `start` on still unclaimed, and the
-- literals that no sequence claims. Each word has been `seen` at its latest position.
def sequences (data : Array UInt8) (start i : Nat) (seen : Std.HashMap Nat Nat)
    (past : List Sequence) : List Sequence × Bytes :=
  if i + 12 < data.size then
    let word := wordAt data i
    let last? := seen[word]?
    let seen := seen.insert word i
    match last? with
    | none => sequences data start (i + 1) seen past
    | some j =>
      let offset := i - j
      if offset ≤ maxOffset then
        let count :=
          commonLength data (data.size - 5) (j + minCopy) (i + minCopy) + minCopy
        let s : Sequence := ⟨(data.extract start i).toList, offset, count⟩
        sequences data (i + count) (i + count) seen (s :: past)
      else
        sequences data start (i + 1) seen past
  else
    (past.reverse, (data.extract start).toList)
termination_by data.size - i
decreasing_by
  · omega
  · have : 0 < count := Nat.succ_pos _
    omega
  · omega

def encode (data : Bytes) : Bytes :=
  let (sequences, rest) := sequences data.toArray 0 0 {} []
  sequences.flatMap Sequence.encode ++ encodeLast rest

def compress? (data : Bytes) : Option Bytes :=
  let block := encode data
  if block.length < data.length ∧ decode 0 data.length #[] block = some data.toArray then
    some block
  else
    none

theorem length_of_compress? {data block : Bytes} (h : compress? data = some block) :
    block.length < data.length := by
  simp only [compress?] at h
  split at h
  · next hb => cases h; exact hb.1
  · cases h

theorem decode_of_compress? {data block : Bytes} (h : compress? data = some block) :
    decode 0 data.length #[] block = some data.toArray := by
  simp only [compress?] at h
  split at h
  · next hb => cases h; exact hb.2
  · cases h

end BitPacking.Lz4.Block
