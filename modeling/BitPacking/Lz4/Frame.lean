import BitPacking.Compression
import BitPacking.Lz4.Frame.Reader
import BitPacking.Lz4.Frame.Writer

namespace BitPacking.Lz4

instance : Compression where
  Compressor := Frame.Writer
  new := {}
  write := Frame.Writer.write
  finish := Frame.Writer.finish
  decompress := Frame.decode

end BitPacking.Lz4
