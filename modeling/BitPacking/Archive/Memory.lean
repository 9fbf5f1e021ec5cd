import BitPacking.Archive.Basic
import BitPacking.Archive.Name
import BitPacking.Archive.Seal
import BitPacking.Table

namespace BitPacking.Archive

structure Memory where
  entries : Table String Bytes := {}

namespace Memory

def size (m : Memory) : Nat :=
  m.entries.pairs.length

variable [Compression]

inductive Write
  | validating (name : String)
  -- The sealed bytes so far, the latest first.
  | sealing (name : String) (sealed : List Bytes) (s : Seal)
  | storing (name : String) (sealed : Bytes) (length : Nat)
  | done (outcome : Except Error Nat)

namespace Write

def request : Write → Request
  | validating _ | storing .. => .turn
  | sealing .. => .input Bytes.blockSize
  | done outcome => .done (.returned outcome)

def rank : Write → Nat
  | validating _ => 3
  | sealing .. => 2
  | storing .. => 1
  | done _ => 0

def feed : Write → Source.Answer → Write
  | sealing name sealed s, .data content =>
    let (bytes, s) := s.write content
    sealing name (bytes :: sealed) s
  | sealing name sealed s, .endOfInput =>
    storing name (s.finish :: sealed).reverse.flatten s.length
  | sealing .., .failure e => done (.error (.io e))
  | w, _ => w

end Write

def turn (m : Memory) : Write → Memory × Write
  | .validating name =>
    match Name.validate name with
    | .ok _ => (m, .sealing name [] {})
    | .error e => (m, .done (.error e))
  | .storing name sealed length =>
    ({ entries := m.entries.insert name sealed }, .done (.ok length))
  | w => (m, w)

def read (m : Memory) (name : String) : Except Error Bytes :=
  match m.entries.get? name with
  | some sealed => Seal.contentOf name sealed
  | none => .error (.entryNotFound name)

instance : Archive Memory where
  Write := Write
  begin := .validating
  request := Write.request
  turn m w := pure (m.turn w)
  feed m w a := (m, w.feed a)
  rank := Write.rank
  rank_turn_lt m w h := by
    cases w with
    | validating name => simp only [turn, Logged.value_pure]; split <;> simp [Write.rank]
    | storing => simp [turn, Write.rank]
    | sealing | done => cases h
  rank_feed_lt m w n a h ha := by
    cases w <;> simp_all [Write.request]
    cases a <;> simp_all [Source.Answer.Final, Write.rank, Write.feed]
  read := read
  contains m name := (m.entries.get? name).isSome
  names m := m.entries.keys.mergeSort (· ≤ ·)

end Memory
end BitPacking.Archive
