import BitPacking.Archive.Basic
import BitPacking.Archive.FileTree
import BitPacking.Archive.Seal

namespace BitPacking.Archive

structure Directory where
  files : FileTree := {}
  -- What sets the staging files of this process apart from those of others.
  processId : Nat
  staged : Nat := 0

namespace Directory

def stagingArea : String :=
  ".staging"

def prepare (d : Directory) (deleteExisting : Bool) : Except Error Directory := do
  let lift {α : Type} (x : Except IoError α) : Except Error α := x.mapError .io
  let files ←
    if deleteExisting ∧ (d.files.node? []).isSome then lift d.files.removeAll else .ok d.files
  let (made, files) := files.makeDirectories [stagingArea]
  lift made
  return { d with files }

def entryPath (name : String) : Except Error (List String) := do
  Name.validate name
  if name = stagingArea then .error (.invalidEntryName name) else .ok (Name.segments name)

def stagingPath (d : Directory) (name : String) : List String :=
  stagingArea :: Name.segments s!"{name}.{d.processId}.{d.staged}"

def contains (d : Directory) (name : String) : Bool :=
  match entryPath name with
  | .ok entry => d.files.isFile entry
  | .error _ => false

def append (d : Directory) (staging : List String) (bytes : Bytes) : Directory :=
  if bytes.isEmpty then d else { d with files := d.files.append staging bytes }

variable [Compression]

inductive Write
  | validating (name : String)
  | creating (entry staging : List String)
  | sealing (entry staging : List String) (s : Seal)
  | placing (entry staging : List String) (length : Nat)
  | clearing (staging : List String) (failure : Error)
  | done (outcome : Except Error Nat)

namespace Write

def request : Write → Request
  | validating _ | creating .. | placing .. | clearing .. => .turn
  | sealing .. => .input Bytes.blockSize
  | done outcome => .done (.returned outcome)

def rank : Write → Nat
  | validating _ => 5
  | creating .. => 4
  | sealing .. => 3
  | placing .. => 2
  | clearing .. => 1
  | done _ => 0

end Write

def feed (d : Directory) : Write → Source.Answer → Directory × Write
  | .sealing entry staging s, .data content =>
    let (bytes, s) := s.write content
    (d.append staging bytes, .sealing entry staging s)
  | .sealing entry staging s, .endOfInput =>
    (d.append staging s.finish, .placing entry staging s.length)
  | .sealing _ staging _, .failure e => (d, .clearing staging (.io e))
  | w, _ => (d, w)

def turn (d : Directory) : Write → Logged (Directory × Write)
  | .validating name =>
    match entryPath name with
    | .ok entry => pure ({ d with staged := d.staged + 1 }, .creating entry (d.stagingPath name))
    | .error e => pure (d, .done (.error e))
  | .creating entry staging =>
    match d.files.create staging with
    | .ok files => pure ({ d with files }, .sealing entry staging {})
    | .error e => pure (d, .clearing staging (.io e))
  | .placing entry staging length =>
    match d.files.rename staging entry with
    | .ok files => pure ({ d with files }, .done (.ok length))
    | .error e => pure (d, .clearing staging (.io e))
  | .clearing staging failure =>
    match d.files.remove staging with
    | .ok files => pure ({ d with files }, .done (.error failure))
    | .error _ => ⟨(d, .done (.error failure)), [.stagingNotRemoved]⟩
  | w => pure (d, w)

def read (d : Directory) (name : String) : Except Error Bytes := do
  let entry ← entryPath name
  match d.files.read entry with
  | .ok sealed => Seal.contentOf name sealed
  | .error .notFound => .error (.entryNotFound name)
  | .error e => .error (.io e)

instance : Archive Directory where
  Write := Write
  begin := .validating
  request := Write.request
  turn := turn
  feed := feed
  rank := Write.rank
  rank_turn_lt d w h := by
    cases w with
    | sealing | done => cases h
    | _ => simp only [turn]; split <;> simp [Write.rank]
  rank_feed_lt d w n a h ha := by
    cases w <;> simp_all only [Write.request, reduceCtorEq]
    cases a <;> simp_all [Source.Answer.Final, Write.rank, feed]
  read := read
  contains := contains
  names d := d.files.fileNames

end Directory
end BitPacking.Archive
