import BitPacking.Checksum.Crc32c
import BitPacking.Error
import BitPacking.Lz4.Frame

namespace BitPacking.Archive

open Checksum

variable [Compression]

-- An entry that is being sealed: its content is compressed, and its checksum comes last.
structure Seal where
  crc : Crc32c := {}
  payload : Compression.Compressor := Compression.new
  length : Nat := 0

namespace Seal

def write (s : Seal) (content : Bytes) : Bytes × Seal :=
  let (sealed, payload) := Compression.write s.payload content
  (sealed, { crc := s.crc.update content, payload, length := s.length + content.length })

def finish (s : Seal) : Bytes :=
  Compression.finish s.payload ++ Bytes.littleEndian 4 s.crc.value.toNat

def contentOf (name : String) (sealed : Bytes) : Except Error Bytes :=
  if sealed.length < 4 then
    .error (.corruptEntry name)
  else
    match Compression.decompress (sealed.take (sealed.length - 4)) with
    | none => .error (.corruptEntry name)
    | some content =>
      let check := Bytes.ofLittleEndian (sealed.drop (sealed.length - 4))
      if (Crc32c.ofBytes content).toNat = check then .ok content
      else .error (.checksumMismatch name)

end Seal
end BitPacking.Archive
