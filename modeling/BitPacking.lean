import BitPacking.Archive.Directory
import BitPacking.Archive.EntryEncoder.Call
import BitPacking.Archive.Memory
import BitPacking.Archive.Outlet
import BitPacking.Batch.Decoder
import BitPacking.Batch.Encoder
import BitPacking.Pipe.Transfer
import BitPacking.Proofs.Archive.EntryEncoder.Account
import BitPacking.Proofs.Archive.EntryEncoder.Interleaving
import BitPacking.Proofs.Batch.Decoder
import BitPacking.Proofs.Batch.Encoder
import BitPacking.Proofs.Batch.RoundTrip
import BitPacking.Proofs.Bits.Reader
import BitPacking.Proofs.Bits.Writer
import BitPacking.Proofs.Config
import BitPacking.Proofs.Header
import BitPacking.Proofs.Pipe.Content
import BitPacking.Proofs.Pipe.Session
import BitPacking.Proofs.Schedule
import BitPacking.Proofs.Sink
import BitPacking.Proofs.Stream.Decoder
import BitPacking.Proofs.Stream.Delivery
import BitPacking.Proofs.Stream.Encoder
import BitPacking.Proofs.Stream.Layout
import BitPacking.Proofs.Stream.Reception
import BitPacking.Proofs.Stream.Relay
import BitPacking.Proofs.Stream.RoundTrip
import BitPacking.Proofs.Stream.Sending
import BitPacking.Proofs.Stream.Session
import BitPacking.Proofs.Truncation
import BitPacking.Stream.Relay
import BitPacking.Proofs.Archive.Write
import BitPacking.Proofs.Archive.Directory.Write
import BitPacking.Proofs.Archive.Directory.Traffic
import BitPacking.Proofs.Archive.Refinement
import BitPacking.Proofs.Fragmentation
import BitPacking.Proofs.Agreement
import BitPacking.Proofs.Reencoding
import BitPacking.Proofs.Archive.EntryEncoder.Progress
import BitPacking.Proofs.Batch.Positions
import BitPacking.Proofs.Batch.Layout
import BitPacking.Proofs.Archive.Directory.Reserved
import BitPacking.Proofs.Archive.Deposits
import BitPacking.Proofs.Stream.Traffic
import BitPacking.Proofs.Warnings
import BitPacking.Proofs.Batch.ByteStrings
import BitPacking.Proofs.Demand
import BitPacking.Proofs.Archive.Copy
import BitPacking.Proofs.Archive.Directory.Tidy
import BitPacking.Proofs.Archive.Numbering
import BitPacking.Proofs.Checksum.Burst
import BitPacking.Proofs.Archive.Confinement
import BitPacking.Proofs.Bits.Cursor
import BitPacking.Proofs.Bits.Writing
import BitPacking.Proofs.Bits.Scanner
import BitPacking.Proofs.Bits.Reading
import BitPacking.Proofs.Header.Buffer
