import BitPacking.Proofs.Batch.Spelling
import BitPacking.Proofs.Stream.Spelling

namespace BitPacking

namespace Bits.Reader

-- What a read on the bytes alone comes to where they are followed by the given ending.
def atEnding (ending : Except IoError Unit) :
    Except IoError (Option UInt64) → Except IoError (Option UInt64)
  | .ok none => ending.map fun _ => none
  | outcome  => outcome

-- What reads of the given widths come to, up to the first that gives no element. What a source has
-- to give after that does not depend on what it gave before.
def outcomes (r : Reader) : (widths : List Nat) → List (Except IoError (Option UInt64))
  | []      => []
  | w :: ws =>
    match r.readBits w with
    | (.ok (some raw), r) => .ok (some raw) :: r.outcomes ws
    | (outcome, _)        => [outcome]

theorem outcomes_of_element? {r : Reader} {w : Nat} {raw : UInt64} {rest : List Bool}
    (h : element? w r.digits = some (raw, rest)) (ws : List Nat) :
    ∃ r' : Reader, r.outcomes (w :: ws) = .ok (some raw) :: r'.outcomes ws ∧ r'.digits = rest ∧
      r'.ending = r.ending := by
  have ⟨r', hr, hd, he⟩ := readBits_of_element? h
  exact ⟨r', by rw [outcomes, hr], hd, he⟩

theorem outcomes_of_none {r : Reader} {w : Nat} (h : element? w r.digits = none) (ws : List Nat) :
    r.outcomes (w :: ws) = [atEnding r.ending (.ok none)] := by
  have ⟨r', hr⟩ := readBits_of_none h
  rw [outcomes, hr]
  cases r.ending <;> rfl

theorem outcomes_eq_map {r r₀ : Reader} (hd : r.digits = r₀.digits) (he : r₀.ending = .ok ())
    (widths : List Nat) : r.outcomes widths = (r₀.outcomes widths).map (atEnding r.ending) := by
  induction widths generalizing r r₀
  case nil          => rfl
  case cons w ws hi =>
    match hx : element? w r₀.digits with
    | none             =>
      rw [outcomes_of_none hx, outcomes_of_none (hd ▸ hx), he]
      rfl
    | some (raw, rest) =>
      have ⟨r₁, hr₁, hd₁, he₁⟩ := outcomes_of_element? (hd ▸ hx) ws
      have ⟨r₂, hr₂, hd₂, he₂⟩ := outcomes_of_element? hx ws
      rw [hr₁, hr₂, hi (hd₁.trans hd₂.symm) (he₂.trans he), he₁]
      rfl

-- What reads of the given widths come to, all of them.
def reads (r : Reader) : (widths : List Nat) → List (Except IoError (Option UInt64))
  | []      => []
  | w :: ws => (r.readBits w).1 :: (r.readBits w).2.reads ws

-- Where the input is over for good, reading on after a failure makes no difference either.
theorem reads_eq_map {r r₀ : Reader} (hd : r.digits = r₀.digits) (he : r₀.ending = .ok ())
    (hl : r.source.Lasting) (hl₀ : r₀.source.Lasting) (widths : List Nat) :
    r.reads widths = (r₀.reads widths).map (atEnding r.ending) := by
  induction widths generalizing r r₀
  case nil          => rfl
  case cons w ws hi =>
    obtain ⟨hl', he', hlost⟩ := readBits_lasting hl w
    obtain ⟨hl₀', he₀', hlost₀⟩ := readBits_lasting hl₀ w
    have htail (hd' : (r.readBits w).2.digits = (r₀.readBits w).2.digits) :
        (r.readBits w).2.reads ws =
          ((r₀.readBits w).2.reads ws).map (atEnding r.ending) := by
      rw [hi hd' (he₀'.trans he) hl' hl₀', he']
    rcases hx : element? w r₀.digits with _ | ⟨raw, rest⟩
    case none =>
      have hn := element?_eq_none_iff.1 hx
      rw [reads, reads, htail ((hlost (hd ▸ hn)).trans (hlost₀ hn).symm), List.map_cons,
        readBits_of_lt hn, readBits_of_lt (hd ▸ hn), he]
      cases r.ending <;> rfl
    case some =>
      obtain ⟨r₁, hr₁, hd₁, _⟩ := readBits_of_element? (hd ▸ hx)
      obtain ⟨r₂, hr₂, hd₂, _⟩ := readBits_of_element? hx
      have hd' : (r.readBits w).2.digits = (r₀.readBits w).2.digits := by
        rw [hr₁, hr₂]
        exact hd₁.trans hd₂.symm
      rw [reads, reads, htail hd', List.map_cons, hr₁, hr₂]
      rfl

end Bits.Reader

-- What decoding the bytes alone comes to where they are followed by the given ending.
def Stream.Decoded.atEnding (ending : Except IoError Unit) (d : Decoded) : Decoded :=
  { d with failure := d.failure.map (·.atEnding ending) }

def Batch.Delivered.atEnding (ending : Except IoError Unit) (d : Delivered) : Delivered :=
  { d with failure := d.failure.map (·.atEnding ending) }

theorem Stream.Decoder.spell_eq_map (bytes : Bytes) (ending : Except IoError Unit)
    (containsZero : Bool) : spell bytes ending containsZero =
      ((spell bytes (.ok ()) containsZero).map (Prod.map id (·.atEnding ending))).mapError
        (·.atEnding ending) := by
  rw [spell, spell]
  cases Header.decode (bytes.take Header.size)
  case error => simp [Except.map, Except.mapError]
  case ok    => simp [Except.map, Except.mapError, Decoded.atEnding]

theorem Batch.Decoder.spell_eq_map (bytes : Bytes) (ending : Except IoError Unit)
    (containsZero : Bool) : spell bytes ending containsZero =
      ((spell bytes (.ok ()) containsZero).map (Prod.map id (·.atEnding ending))).mapError
        (·.atEnding ending) := by
  rw [spell, spell]
  cases Header.decode (bytes.take Header.size)
  case error => simp [Except.map, Except.mapError]
  case ok    => simp [Except.map, Except.mapError, Delivered.atEnding]

-- A source gives what its bytes give in one piece, except that where they fall short a failure is
-- told as the failure it is.
theorem decode_eq_decode_supplied (source : Source) (containsZero : Bool) :
    let plain := Source.ofBytes source.supplied
    (Stream.Decoder.ofSource source containsZero).1.map (fun d => (d.header, d.decode.1)) =
        ((Stream.Decoder.ofSource plain containsZero).1.map fun d =>
          (d.header, d.decode.1.atEnding source.ending)).mapError (·.atEnding source.ending) ∧
      (Batch.Decoder.ofSource source containsZero).1.map (fun d => (d.header, d.deliver)) =
        ((Batch.Decoder.ofSource plain containsZero).1.map fun d =>
          (d.header, d.deliver.atEnding source.ending)).mapError (·.atEnding source.ending) ∧
      ∀ blockSize plainBlockSize widths,
        (Bits.Reader.ofSource source blockSize).outcomes widths =
            ((Bits.Reader.ofSource plain plainBlockSize).outcomes widths).map
              (Bits.Reader.atEnding source.ending) ∧
          (source.Lasting → (Bits.Reader.ofSource source blockSize).reads widths =
            ((Bits.Reader.ofSource plain plainBlockSize).reads widths).map
              (Bits.Reader.atEnding source.ending)) := by
  intro plain
  have hs : plain.supplied = source.supplied := Source.supplied_ofBytes _
  have he : plain.ending = .ok () := Source.ending_ofBytes _
  refine ⟨?_, ?_, fun n m widths => ?_⟩
  · rw [Stream.Decoder.map_decode_ofSource, Stream.Decoder.spell_eq_map, ← hs, ← he,
      ← Stream.Decoder.map_decode_ofSource]
    cases (Stream.Decoder.ofSource plain containsZero).1 <;> rfl
  · rw [Batch.Decoder.map_deliver_ofSource, Batch.Decoder.spell_eq_map, ← hs, ← he,
      ← Batch.Decoder.map_deliver_ofSource]
    cases (Batch.Decoder.ofSource plain containsZero).1 <;> rfl
  · have hd : (Bits.Reader.ofSource source n).digits = (Bits.Reader.ofSource plain m).digits := by
      rw [Bits.Reader.digits_of_unread_eq_zero rfl, Bits.Reader.digits_of_unread_eq_zero rfl,
        Bits.Reader.bytes_ofSource, Bits.Reader.bytes_ofSource, hs]
    exact ⟨Bits.Reader.outcomes_eq_map hd he widths,
      fun hl => Bits.Reader.reads_eq_map hd he hl (Source.lasting_ofBytes _) widths⟩

-- A failure within an element: the bits before it are lost, as they are without the failure.
theorem decode_eq_decode_supplied_failing :
    let source : Source :=
      { answers := [.data [3], .interrupted, .data [0xC7]], onward := .failing .notFound }
    let plain := Source.ofBytes [3, 0xC7]
    source.Lasting ∧
    (Bits.Reader.ofSource plain 4).reads [12, 8, 1] = [.ok (some 0x3C), .ok none, .ok none] ∧
    (Bits.Reader.ofSource source 1).reads [12, 8, 1] =
      [.ok (some 0x3C), .error .notFound, .error .notFound] ∧
    (Stream.Decoder.ofSource source true).1.map (fun d => (d.header, d.decode.1)) =
      ((Stream.Decoder.ofSource plain true).1.map fun d =>
        (d.header, d.decode.1.atEnding (.error .notFound))).mapError
          (·.atEnding (.error .notFound)) := by
  intro source plain
  have h := decode_eq_decode_supplied source true
  have hr : (Bits.Reader.ofSource plain 4).reads [12, 8, 1] =
      [.ok (some 0x3C), .ok none, .ok none] := by decide +kernel
  refine ⟨rfl, hr, ?_, h.1⟩
  rw [(h.2.2 1 4 [12, 8, 1]).2 rfl]
  exact congrArg _ hr

end BitPacking
