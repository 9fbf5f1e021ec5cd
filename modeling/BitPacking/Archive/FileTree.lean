import BitPacking.Archive.Name
import BitPacking.Table

namespace BitPacking.Archive

namespace FileTree

abbrev Place := List String

inductive Node
  | file (content : Bytes)
  | directory
deriving DecidableEq, Repr

end FileTree

structure FileTree where
  nodes : Table FileTree.Place FileTree.Node := {}
  -- What comes before a path when it is handed to a file system, in bytes.
  lead : Nat := 0

namespace FileTree

def nameLimit : Nat :=
  255

def pathLimit : Nat :=
  4095

def node? (t : FileTree) (p : Place) : Option Node :=
  t.nodes.get? p

def set (t : FileTree) (p : Place) (n : Node) : FileTree :=
  { t with nodes := t.nodes.insert p n }

def erase (t : FileTree) (p : Place) : FileTree :=
  { t with nodes := t.nodes.erase p }

def needDirectory (t : FileTree) (p : Place) : Except IoError Unit :=
  match t.node? p with
  | some .directory => .ok ()
  | some (.file _) => .error .notADirectory
  | none => .error .notFound

-- Follows a path from a place on. Only what comes before the last segment has to exist.
def follow (t : FileTree) (p : Place) : List String → Except IoError Place
  | [] => .ok p
  | s :: rest => do
    t.needDirectory p
    if s = "" ∨ s = "." then t.follow p rest
    else if s = ".." then t.follow p.dropLast rest
    else if nameLimit < s.utf8ByteSize then .error .nameTooLong
    else t.follow (p ++ [s]) rest

def checkPath (t : FileTree) (path : List String) : Except IoError Unit :=
  if path.any (·.toList.contains '\x00') then .error .nulInName
  else if pathLimit < t.lead + ("/".intercalate path).utf8ByteSize then .error .nameTooLong
  else .ok ()

def locate (t : FileTree) (path : List String) : Except IoError Place := do
  t.checkPath path
  t.follow [] path

def read (t : FileTree) (path : List String) : Except IoError Bytes := do
  match t.node? (← t.locate path) with
  | some (.file content) => .ok content
  | some .directory => .error .isADirectory
  | none => .error .notFound

def isFile (t : FileTree) (path : List String) : Bool :=
  (t.read path).isOk

def placeForFile (t : FileTree) (path : List String) : Except IoError Place := do
  let p ← t.locate path
  t.needDirectory p.dropLast
  match t.node? p with
  | some .directory => .error .isADirectory
  | _ => .ok p

def create (t : FileTree) (path : List String) : Except IoError FileTree :=
  return t.set (← t.placeForFile path) (.file [])

-- A file that was removed while it was being written takes more bytes without a trace.
def append (t : FileTree) (path : List String) (bytes : Bytes) : FileTree :=
  match t.locate path with
  | .ok p =>
    match t.node? p with
    | some (.file content) => t.set p (.file (content ++ bytes))
    | _ => t
  | .error _ => t

def write (t : FileTree) (path : List String) (content : Bytes) : Except IoError FileTree :=
  return t.set (← t.placeForFile path) (.file content)

def remove (t : FileTree) (path : List String) : Except IoError FileTree := do
  let p ← t.locate path
  match t.node? p with
  | some (.file _) => return t.erase p
  | some .directory => .error .isADirectory
  | none => .error .notFound

def trim (path : List String) : List String × Bool :=
  let front := (path.reverse.dropWhile (· = "")).reverse
  (front, front.length < path.length)

-- Moves a file to the end of another path, over a file that is there. The end has to be a name, and
-- one that does not ask for a directory. The directories of both are looked up before all else.
def rename (t : FileTree) (source target : List String) : Except IoError FileTree := do
  t.checkPath source
  t.checkPath target
  let (target, slashed) := trim target
  t.needDirectory (← t.locate source.dropLast)
  t.needDirectory (← t.locate target.dropLast)
  if target.getLast? = some "." ∨ target.getLast? = some ".." then
    .error .resourceBusy
  else
    let content ← t.read source
    if slashed then
      .error .notADirectory
    else
      let p ← t.placeForFile target
      return (← t.remove source).set p (.file content)

-- Makes the directory at the end of a path, and those on the way, where they are missing. What was
-- made before a failure stays. A dot at the end asks for what comes before it, without making it.
def makeDirectories (t : FileTree) (path : List String) : Except IoError Unit × FileTree :=
  match t.checkPath path with
  | .error e => (.error e, t)
  | .ok _ => go t [] (trim path).1
where
  go (t : FileTree) (p : Place) : List String → Except IoError Unit × FileTree
    | [] =>
      match t.node? p with
      | some .directory => (.ok (), t)
      | some (.file _) => (.error .alreadyExists, t)
      | none => (.ok (), t.set p .directory)
    | ["."] => (t.needDirectory p, t)
    | s :: rest =>
      if s = "" ∨ s = "." then
        go t p rest
      else
        match t.node? p with
        | some (.file _) => (.error .notADirectory, t)
        | n? =>
          let t := if n?.isNone then t.set p .directory else t
          if s = ".." then go t p.dropLast rest
          else if nameLimit < s.utf8ByteSize then (.error .nameTooLong, t)
          else go t (p ++ [s]) rest

def removeAll (t : FileTree) : Except IoError FileTree := do
  t.needDirectory []
  return { t with nodes := {} }

def list (t : FileTree) (p : Place) : List String :=
  t.nodes.keys.filterMap fun q =>
    if q ≠ [] ∧ q.dropLast = p then q.getLast? else none

def fileNames (t : FileTree) : List String :=
  let names := t.nodes.pairs.filterMap fun
    | ([s], .file _) => some s
    | _ => none
  names.mergeSort (· ≤ ·)

end FileTree
end BitPacking.Archive
