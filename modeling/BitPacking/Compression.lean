import BitPacking.Bytes

namespace BitPacking

-- How content is compressed as it comes in, and decompressed all at once. A compressor puts bytes
-- out when it likes.
class Compression where
  Compressor : Type
  new : Compressor
  write : Compressor → Bytes → Bytes × Compressor
  finish : Compressor → Bytes
  decompress : Bytes → Option Bytes

namespace Compression

variable [Compression]

def compress (c : Compressor) : (pieces : List Bytes) → Bytes
  | [] => finish c
  | piece :: pieces => (write c piece).1 ++ compress (write c piece).2 pieces

-- Content is found again, in whatever pieces it came in.
class Lossless : Prop where
  decompress_compress (pieces : List Bytes) :
    decompress (compress new pieces) = some pieces.flatten

end Compression
end BitPacking
