import BitPacking.Bytes

namespace BitPacking

inductive IoError
  | other (text : String)
  | wouldBlock
  | writeZero
  | pipeClosed
  | pipeReaderGone
  | pipeAborted
  | notFound
  | notADirectory
  | isADirectory
  | alreadyExists
  | nameTooLong
  | resourceBusy
  | nulInName
deriving DecidableEq, Repr

def IoError.message : IoError → String
  | other text => text
  | wouldBlock => "operation would block"
  | writeZero => "failed to write whole buffer"
  | pipeClosed => "pipe already closed"
  | pipeReaderGone => "pipe reader is gone"
  | pipeAborted => "pipe aborted by writer"
  | notFound => "No such file or directory (os error 2)"
  | notADirectory => "Not a directory (os error 20)"
  | isADirectory => "Is a directory (os error 21)"
  | alreadyExists => "File exists (os error 17)"
  | nameTooLong => "File name too long (os error 36)"
  | resourceBusy => "Device or resource busy (os error 16)"
  | nulInName => "file name contained an unexpected NUL byte"

inductive Error
  | maximumOverflows
  | streamNotDelimited
  | lengthMismatch (expected actual : Nat)
  | reservedValue (value : UInt64)
  | valueTooLarge (value : UInt64) (bits : Nat)
  | truncatedInput
  | missingEndMarker
  | invalidHeader (bits : UInt8)
  | countOverflow
  | encoderAborted
  | entryNotFound (name : String)
  | invalidEntryName (name : String)
  | checksumMismatch (name : String)
  | corruptEntry (name : String)
  | drainCrashed
  | io (cause : IoError)
deriving DecidableEq, Repr

def Error.message : Error → String
  | maximumOverflows => "invalid configuration: maximum value overflows when remapping zero"
  | streamNotDelimited => "invalid configuration: streams are always delimiter-terminated"
  | lengthMismatch expected actual =>
    s!"given sequence is of length {actual}, but should be {expected}"
  | reservedValue value =>
    s!"cannot store {value}: it is identical to the delimiter after remapping"
  | valueTooLarge value bits => s!"cannot store {value} in {bits} bits"
  | truncatedInput => "input ended before all declared sequences were read"
  | missingEndMarker => "stream ended without an end marker"
  | invalidHeader bits => s!"invalid element width {bits} in header"
  | countOverflow => "sequence count exceeds u32::MAX"
  | encoderAborted => "encoder was aborted or already finished"
  | entryNotFound name => s!"no entry '{name}' in archive"
  | invalidEntryName name => s!"invalid entry name '{name}'"
  | checksumMismatch name => s!"checksum mismatch for entry '{name}'"
  | corruptEntry name => s!"entry '{name}' is corrupt"
  | drainCrashed => "archive drain thread failed: drain thread panicked"
  | io cause => s!"i/o failure: {cause.message}"

def Error.overflows : Error → Nat
  | valueTooLarge .. => 1
  | _ => 0

end BitPacking
