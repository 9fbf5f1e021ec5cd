import BitPacking.Archive.Seal
import BitPacking.Proofs.Source

namespace BitPacking.Archive.Seal

open Checksum

variable [Compression] {content payload sealed trailer : Bytes} {s : Seal} {name : String}

def writes (s : Seal) : (pieces : List Bytes) → Bytes × Seal
  | []              => ([], s)
  | piece :: pieces =>
    let (sealed, s) := s.write piece
    let (more, s) := s.writes pieces
    (sealed ++ more, s)

def after (pieces : List Bytes) : Bytes × Seal :=
  writes {} pieces

def ofPieces (pieces : List Bytes) : Bytes :=
  (after pieces).1 ++ (after pieces).2.finish

def ofSource (source : Source) : Bytes :=
  ofPieces (source.blocks Bytes.blockSize)

theorem writes_append (s : Seal) (front back : List Bytes) : s.writes (front ++ back) =
    ((s.writes front).1 ++ ((s.writes front).2.writes back).1,
      ((s.writes front).2.writes back).2) := by
  induction front generalizing s
  case nil                => rfl
  case cons piece more hi => simp only [List.cons_append, writes, hi, List.append_assoc]

theorem after_append (pieces : List Bytes) (piece : Bytes) : after (pieces ++ [piece]) =
    ((after pieces).1 ++ ((after pieces).2.write piece).1, ((after pieces).2.write piece).2) := by
  rw [after, writes_append]
  simp [writes, after]

theorem length_writes (s : Seal) (pieces : List Bytes) :
    (s.writes pieces).2.length = s.length + pieces.flatten.length := by
  induction pieces generalizing s
  case nil                => rfl
  case cons piece more hi =>
    rw [List.flatten_cons, List.length_append, ← Nat.add_assoc]
    exact hi (s.write piece).2

@[simp]
theorem length_after (pieces : List Bytes) : (after pieces).2.length = pieces.flatten.length := by
  rw [after, length_writes, Nat.zero_add]

theorem writes_finish (s : Seal) (pieces : List Bytes) :
    (s.writes pieces).1 ++ (s.writes pieces).2.finish =
      Compression.compress s.payload pieces ++
        Bytes.littleEndian 4 (s.crc.update pieces.flatten).value.toNat := by
  induction pieces generalizing s
  case nil                => rfl
  case cons piece more hi =>
    rw [List.flatten_cons, Crc32c.update_append, Compression.compress, List.append_assoc]
    exact (List.append_assoc ..).trans (congrArg _ (hi (s.write piece).2))

theorem ofPieces_eq (pieces : List Bytes) : ofPieces pieces =
    Compression.compress Compression.new pieces ++
      Bytes.littleEndian 4 (Crc32c.ofBytes pieces.flatten).toNat :=
  writes_finish {} pieces

theorem contentOf_append (hl : trailer.length = 4)
    (hd : Compression.decompress payload = some content) (name : String) :
    contentOf name (payload ++ trailer) =
      if (Crc32c.ofBytes content).toNat = Bytes.ofLittleEndian trailer then .ok content
      else .error (.checksumMismatch name) := by
  have hl : (payload ++ trailer).length = payload.length + 4 := by rw [List.length_append, hl]
  rw [contentOf, if_neg (by omega), hl, Nat.add_sub_cancel, List.take_left, List.drop_left, hd]

-- What has been sealed of some content, in whatever pieces it came in.
def Sealed (content sealed : Bytes) (s : Seal) : Prop :=
  ∃ pieces : List Bytes, pieces.flatten = content ∧ after pieces = (sealed, s)

theorem sealed_nil : Sealed [] [] {} :=
  ⟨[], rfl, rfl⟩

theorem Sealed.write (h : Sealed content sealed s) (more : Bytes) :
    Sealed (content ++ more) (sealed ++ (s.write more).1) (s.write more).2 := by
  have ⟨pieces, hc, hs⟩ := h
  refine ⟨pieces ++ [more], ?_, ?_⟩
  · rw [List.flatten_append, hc, List.flatten_singleton]
  · rw [after_append, hs]

theorem Sealed.length (h : Sealed content sealed s) : s.length = content.length := by
  have ⟨pieces, hc, hs⟩ := h
  rw [← hc, ← length_after, hs]

section Lossless

variable [Compression.Lossless]

@[simp]
theorem contentOf_ofPieces (name : String) (pieces : List Bytes) :
    contentOf name (ofPieces pieces) = .ok pieces.flatten := by
  have hc : Bytes.ofLittleEndian (Bytes.littleEndian 4 (Crc32c.ofBytes pieces.flatten).toNat) =
      (Crc32c.ofBytes pieces.flatten).toNat :=
    Bytes.ofLittleEndian_littleEndian (UInt32.toNat_lt _)
  rw [ofPieces_eq, contentOf_append (Bytes.length_littleEndian ..)
    (Compression.Lossless.decompress_compress pieces), hc, if_pos rfl]

@[simp]
theorem contentOf_ofSource (name : String) (source : Source) :
    contentOf name (ofSource source) = .ok source.supplied := by
  rw [ofSource, contentOf_ofPieces, Source.flatten_blocks (by decide)]

theorem Sealed.contentOf (h : Sealed content sealed s) (name : String) :
    contentOf name (sealed ++ s.finish) = .ok content := by
  have ⟨pieces, hc, hs⟩ := h
  rw [← hc, ← contentOf_ofPieces name, ofPieces, hs]

end Lossless

end BitPacking.Archive.Seal
