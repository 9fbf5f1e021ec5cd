import BitPacking.Lz4.Frame
import BitPacking.Proofs.Lz4.Block

namespace BitPacking.Lz4

namespace Frame

variable {d : Descriptor} {b : Buffer} {out out' : Array UInt8}
variable {input length block rest rest' data : Bytes} {stored : Bool}

theorem decodeBlocks_end (hn : Bytes.cut? 4 input = some (endMark, rest)) :
    decodeBlocks d b out input = decodeEnd d out rest := by
  rw [decodeBlocks]
  split
  case h_1 h => rw [hn] at h; cases h
  case h_2 h => rw [hn] at h; cases h; exact if_pos rfl

theorem decodeBlocks_block (hn : Bytes.cut? 4 input = some (length, rest)) (he : length ≠ endMark)
    (hb : cutBlock? d length rest = some (block, stored, rest'))
    (hd : decodeBlock d (b.makeWay d.blockLimit) stored out block = some out')
    (hs : out'.size ≠ out.size) : ∃ b',
      decodeBlocks d b out input = decodeBlocks d b' out' rest' := by
  refine ⟨(b.makeWay d.blockLimit).advance (out'.size - out.size), ?_⟩
  rw [decodeBlocks]
  split
  case h_1 h => rw [hn] at h; cases h
  case h_2 h =>
    rw [hn] at h
    cases h
    rw [if_neg he]
    split
    case h_1 h => rw [hb] at h; cases h
    case h_2 h =>
      rw [hb] at h
      cases h
      simp only [hd, if_neg hs]

def standard : Descriptor where
  independent     := true
  blockChecksums  := false
  contentSize     := none
  contentChecksum := false
  blockLimit      := blockLength

theorem decode_header (rest : Bytes) :
    decode (header ++ rest) = (decodeBlocks standard {} #[] rest).map Array.toList := by
  have hd : Descriptor.decode (Descriptor.standard ++ [Descriptor.checksum Descriptor.standard] ++
      rest) = some (standard, rest) := rfl
  have hc : Bytes.cut? magic.length (header ++ rest) = some (magic, Descriptor.standard ++
      [Descriptor.checksum Descriptor.standard] ++ rest) :=
    Bytes.cut?_eq_some_iff.2 ⟨rfl, rfl⟩
  have hn : (header ++ rest).isEmpty = false := rfl
  have hm : magic ≠ legacyMagic := by decide
  simp only [decode, hn, hc, Option.bind_eq_bind, Option.bind_some, if_neg hm]
  rw [if_neg nofun, if_neg nofun, if_neg (not_not.2 rfl), hd, Option.bind_some]
  cases decodeBlocks standard {} #[] rest
  all_goals rfl

theorem decodeEnd_standard (out : Array UInt8) (rest : Bytes) :
    decodeEnd standard out rest = some out :=
  rfl

theorem cutBlock?_standard {n : Nat} (hn : n < 1 <<< (8 * 4)) (hl : n % storedBit = block.length)
    (hb : block.length ≤ blockLength) (rest : Bytes) :
    cutBlock? standard (Bytes.littleEndian 4 n) (block ++ rest) =
      some (block, decide (storedBit ≤ n), rest) := by
  have hc : Bytes.cut? (n % storedBit) (block ++ rest) = some (block, rest) :=
    Bytes.cut?_eq_some_iff.2 ⟨hl.symm, rfl⟩
  have hb : ¬standard.blockLimit < block.length := Nat.not_lt.2 hb
  simp only [cutBlock?, Bytes.ofLittleEndian_littleEndian hn, hc, Option.bind_eq_bind,
    Option.bind_some, if_neg hb]
  rfl

theorem littleEndian_ne_endMark {n : Nat} (hn : n < 1 <<< (8 * 4)) (h : n ≠ 0) :
    Bytes.littleEndian 4 n ≠ endMark := by
  intro he
  have hz := congrArg Bytes.ofLittleEndian he
  rw [endMark, Bytes.ofLittleEndian_littleEndian hn,
    Bytes.ofLittleEndian_littleEndian (by decide)] at hz
  exact h hz

theorem decodeBlocks_standard {n : Nat} (hn : n < 1 <<< (8 * 4)) (h : n ≠ 0)
    (hl : n % storedBit = block.length) (hb : block.length ≤ blockLength)
    (hd : ∀ b, decodeBlock standard b (decide (storedBit ≤ n)) out block =
      some (out ++ data.toArray))
    (hne : data ≠ []) (b : Buffer) (rest : Bytes) : ∃ b',
      decodeBlocks standard b out (Bytes.littleEndian 4 n ++ block ++ rest) =
        decodeBlocks standard b' (out ++ data.toArray) rest := by
  have hcut : Bytes.cut? 4 (Bytes.littleEndian 4 n ++ block ++ rest) =
      some (Bytes.littleEndian 4 n, block ++ rest) :=
    Bytes.cut?_eq_some_iff.2 ⟨Bytes.length_littleEndian .., List.append_assoc ..⟩
  exact decodeBlocks_block hcut (littleEndian_ne_endMark hn h) (cutBlock?_standard hn hl hb rest)
    (hd _) (by simpa using hne)

theorem decodeBlocks_encodeBlock (hd : data ≠ []) (hl : data.length ≤ blockLength) (b : Buffer)
    (out : Array UInt8) (rest : Bytes) : ∃ b',
      decodeBlocks standard b out (encodeBlock data ++ rest) =
        decodeBlocks standard b' (out ++ data.toArray) rest := by
  have hle : blockLength < storedBit := by decide
  have hs : storedBit + blockLength < 1 <<< (8 * 4) := by decide
  rw [encodeBlock]
  split
  case h_1 block hc =>
    have hlt := Block.length_of_compress? hc
    have hdec := Block.decode_of_compress? hc
    have hne : block ≠ [] := by
      rintro rfl
      rw [Block.decode] at hdec
      cases hdec
    have hpos : block.length ≠ 0 := by simpa using hne
    refine decodeBlocks_standard (by omega) hpos (Nat.mod_eq_of_lt (by omega)) (by omega)
      (fun b => ?_) hd b rest
    have hn : decide (storedBit ≤ block.length) = false := decide_eq_false (by omega)
    have hx := Block.decode_append out hl hdec
    rw [Nat.add_zero, Array.append_empty] at hx
    rw [hn]
    exact hx
  case h_2 hc       =>
    have hz : storedBit + data.length ≠ 0 := Nat.ne_of_gt (Nat.add_pos_left (by decide) _)
    refine decodeBlocks_standard (by omega) hz ?_ hl (fun b => ?_) hd b rest
    · rw [Nat.add_mod_left, Nat.mod_eq_of_lt (by omega)]
    · rw [decide_eq_true (Nat.le_add_right ..)]
      rfl

theorem decodeBlocks_written {chunks : List Bytes}
    (h : ∀ data ∈ chunks, data ≠ [] ∧ data.length ≤ blockLength) (b : Buffer)
    (out : Array UInt8) :
    decodeBlocks standard b out (chunks.flatMap encodeBlock ++ endMark) =
      some (out ++ chunks.flatten.toArray) := by
  induction chunks generalizing b out
  case nil               =>
    have hn : Bytes.cut? 4 (List.flatMap encodeBlock [] ++ endMark) = some (endMark, []) := rfl
    rw [decodeBlocks_end hn, decodeEnd_standard]
    simp
  case cons data more hi =>
    have ⟨⟨hd, hl⟩, hm⟩ := List.forall_mem_cons.1 h
    rw [List.flatMap_cons, List.append_assoc]
    have ⟨b', hb⟩ := decodeBlocks_encodeBlock hd hl b out (more.flatMap encodeBlock ++ endMark)
    rw [hb, hi hm]
    simp

theorem decode_written {chunks : List Bytes}
    (h : ∀ data ∈ chunks, data ≠ [] ∧ data.length ≤ blockLength) :
    decode (header ++ chunks.flatMap encodeBlock ++ endMark) = some chunks.flatten := by
  rw [List.append_assoc, decode_header, decodeBlocks_written h]
  simp

namespace Writer

-- What a writer has put out of its content, in blocks, and has not put out yet.
structure Wrote (content written : Bytes) (w : Writer) : Prop where
  blocks  : ∃ chunks : List Bytes, (∀ data ∈ chunks, data ≠ [] ∧ data.length ≤ blockLength) ∧
    content = chunks.flatten ++ w.pending ∧
    written ++ w.opening = header ++ chunks.flatMap encodeBlock
  pending : w.pending.length ≤ blockLength

theorem cutBlocks_eq (data : Bytes) : ∃ chunks : List Bytes,
    (∀ x ∈ chunks, x ≠ [] ∧ x.length ≤ blockLength) ∧
      data = chunks.flatten ++ (cutBlocks data).2 ∧
      (cutBlocks data).1 = chunks.flatMap encodeBlock ∧
      (cutBlocks data).2.length ≤ blockLength := by
  fun_induction cutBlocks data
  case case1 data hl                  => exact ⟨[], nofun, rfl, rfl, hl⟩
  case case2 data hl blocks rest hr hi =>
    have ⟨chunks, hc, hd, hb, hp⟩ := hi
    rw [hr] at hd hb hp
    refine ⟨data.take blockLength :: chunks, List.forall_mem_cons.2 ⟨⟨?_, ?_⟩, hc⟩, ?_, ?_, hp⟩
    · rintro hn
      have := congrArg List.length hn
      simp [blockLength] at this hl
      simp [this] at hl
    · exact List.length_take_le ..
    · rw [List.flatten_cons, List.append_assoc, ← hd, List.take_append_drop]
    · rw [List.flatMap_cons, ← hb]

theorem new_wrote : ({} : Writer).Wrote [] [] :=
  ⟨⟨[], nofun, rfl, rfl⟩, by decide⟩

variable {content written : Bytes} {w : Writer}

theorem Wrote.write (h : w.Wrote content written) (data : Bytes) :
    (w.write data).2.Wrote (content ++ data) (written ++ (w.write data).1) := by
  rw [Writer.write]
  split
  case isTrue hd =>
    rw [List.isEmpty_iff.1 hd, List.append_nil, List.append_nil]
    exact h
  case isFalse   =>
    have ⟨chunks, hc, hcontent, hwritten⟩ := h.blocks
    have ⟨more, hm, hd, hb, hp⟩ := cutBlocks_eq (w.pending ++ data)
    generalize cutBlocks (w.pending ++ data) = x at hd hb hp
    obtain ⟨blocks, pending⟩ := x
    refine ⟨⟨chunks ++ more, List.forall_mem_append.2 ⟨hc, hm⟩, ?_, ?_⟩, hp⟩
    · rw [hcontent, List.append_assoc, hd, List.flatten_append, List.append_assoc]
    · show written ++ (w.opening ++ blocks) ++ [] = _
      rw [List.append_nil, ← List.append_assoc, hwritten, List.flatMap_append, ← hb,
        List.append_assoc]

theorem Wrote.finish (h : w.Wrote content written) : decode (written ++ w.finish) = some content := by
  have ⟨chunks, hc, hcontent, hwritten⟩ := h.blocks
  rw [Writer.finish, ← List.append_assoc, ← List.append_assoc, hwritten]
  by_cases hp : w.pending = []
  case pos =>
    rw [hp, List.append_nil] at hcontent
    rw [hp, List.isEmpty_nil, if_pos rfl, List.append_nil, decode_written hc, hcontent]
  case neg =>
    have hlast : ∀ data ∈ chunks ++ [w.pending], data ≠ [] ∧ data.length ≤ blockLength :=
      List.forall_mem_append.2 ⟨hc, List.forall_mem_singleton.2 ⟨hp, h.pending⟩⟩
    have hd := decode_written hlast
    simp only [List.flatMap_append, List.flatMap_singleton, List.flatten_append,
      List.flatten_singleton, ← hcontent] at hd
    rw [if_neg (by simpa using hp), List.append_assoc header, hd]

end Writer

end Frame

theorem decode_compress {content written : Bytes} {w : Frame.Writer} (h : w.Wrote content written)
    (pieces : List Bytes) :
    Frame.decode (written ++ Compression.compress w pieces) = some (content ++ pieces.flatten) := by
  induction pieces generalizing content written w
  case nil                  => rw [List.flatten_nil, List.append_nil]; exact h.finish
  case cons piece pieces hi =>
    rw [Compression.compress, ← List.append_assoc, List.flatten_cons, ← List.append_assoc]
    exact hi (h.write piece)

instance : Compression.Lossless where
  decompress_compress := decode_compress Frame.Writer.new_wrote

end BitPacking.Lz4
