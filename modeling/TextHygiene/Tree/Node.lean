import TextHygiene.Path

/-! Trees of files, symbolic links and folders. A location is the list of names from the top; a
well-formed tree gives each name in a folder to one entry. -/

namespace TextHygiene

abbrev Location := List Name

inductive Node
  | file (content : Bytes)
  | link (target : Path)
  | folder (entries : List (Name × Node))

namespace Node

def isFolder : Node → Bool
  | folder _ => true
  | _ => false

/-- The node at a location, links not followed. -/
def at? : Node → Location → Option Node
  | n, [] => some n
  | folder es, name :: rest => (es.lookup name).bind (·.at? rest)
  | _, _ :: _ => none

/-- Gives `name` to `n`, in the place of the entry that had it, or else as the last entry. -/
def putEntry (name : Name) (n : Node) : List (Name × Node) → List (Name × Node)
  | [] => [(name, n)]
  | e :: es => if e.1 = name then (name, n) :: es else e :: putEntry name n es

/-- Puts a node at a location whose folders exist; elsewhere nothing changes. -/
def put : Node → Location → Node → Node
  | _, [], new => new
  | folder es, [name], new => folder (putEntry name new es)
  | folder es, name :: rest, new =>
    match es.lookup name with
    | some n => folder (putEntry name (n.put rest new) es)
    | none => folder es
  | n, _ :: _, _ => n

/-- Takes away what is at a location below the top. -/
def erase : Node → Location → Node
  | folder es, [name] => folder (es.filter (·.1 ≠ name))
  | folder es, name :: rest =>
    match es.lookup name with
    | some n => folder (putEntry name (n.erase rest) es)
    | none => folder es
  | n, _ => n

mutual

/-- No folder has two entries of one name, and no name is empty, has a slash or is a dot name. -/
def WellFormed : Node → Prop
  | file _ => True
  | link _ => True
  | folder es => (es.map Prod.fst).Nodup ∧ EntriesWellFormed es
termination_by structural n => n

def EntriesWellFormed : List (Name × Node) → Prop
  | [] => True
  | (name, n) :: rest =>
    (name ≠ [] ∧ Byte.slash ∉ name ∧ name ≠ Name.here ∧ name ≠ Name.parent) ∧
      n.WellFormed ∧ EntriesWellFormed rest
termination_by structural es => es

end

end Node

end TextHygiene
