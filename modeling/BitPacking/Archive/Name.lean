import BitPacking.Error

namespace BitPacking.Archive.Name

def segments (name : String) : List String :=
  go name.toList []
where
  go (chars past : List Char) : List String :=
    match chars with
    | [] => [.ofList past.reverse]
    | c :: chars => if c = '/' then .ofList past.reverse :: go chars [] else go chars (c :: past)

inductive Component
  | root
  | here
  | up
  | normal (name : String)
deriving DecidableEq, Repr

-- Empty segments are slashes without meaning, except that one at the start makes the path absolute.
-- A dot is a component of its own only where the path starts with it.
def components (name : String) : List Component :=
  match segments name with
  | [] => []
  | s :: rest => first s rest ++ rest.flatMap later
where
  first (s : String) (rest : List String) : List Component :=
    if s = "" then if rest.isEmpty then [] else [.root]
    else if s = "." then [.here]
    else later s
  later (s : String) : List Component :=
    if s = "" ∨ s = "." then [] else if s = ".." then [.up] else [.normal s]

def isValid (name : String) : Bool :=
  match components name with
  | [.normal _] => true
  | _ => false

def validate (name : String) : Except Error Unit :=
  if isValid name then .ok () else .error (.invalidEntryName name)

end BitPacking.Archive.Name
