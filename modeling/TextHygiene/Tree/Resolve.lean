import TextHygiene.Scan
import TextHygiene.Tree.Node

/-! Resolving paths in a file system. A walk goes down name by name and stops at a link; the link's
names then take its place, at most forty times in one resolution. -/

namespace TextHygiene

/-- What the disk has to say of a location, beside what the tree holds there. -/
structure DiskEntry where
  /-- The length that a file of some content is listed with. -/
  fileLength : Bytes → Nat := List.length
  /-- The length that a folder is listed with, which follows from nothing in the tree. -/
  folderLength : Nat := 0
  /-- The error with which a file refuses to be opened for reading. -/
  readRefusal : Option DiskError := none
  /-- The error that reading a file ends in, and the number of bytes before it. -/
  fault : Option (Nat × DiskError) := none
  /-- The error with which a file refuses to be written or to be made. -/
  writeRefusal : Option DiskError := none

/-- What comes of opening a file for reading. -/
def DiskEntry.openStream (d : DiskEntry) (content : Bytes) : Except IoError Stream :=
  match d.readRefusal, d.fault with
  | some e, _ => .error e.toIoError
  | none, some (n, e) => .ok { bytes := content.take n, ending := some e.toIoError }
  | none, none => .ok { bytes := content }

/-- A tree from its top folder, the location of the current folder in it, and the disk that holds
it. The files are regular files, each with one name: devices and second names are left out. Folders
may be searched and listed. -/
structure FileSystem where
  root : Node
  current : Location
  disk : Location → DiskEntry := fun _ => {}

namespace Node

/-- Where one name leads from a folder. -/
inductive Move
  | to (loc : Location)
  | link (target : Path)
  | absent

def move (root : Node) (loc : Location) (name : Name) : Except IoError Move :=
  match root.at? loc with
  | some (folder es) =>
    if name = [] ∨ name = Name.here then .ok (.to loc)
    else if name = Name.parent then .ok (.to loc.dropLast)
    else if Name.maxLength < name.length then .error .nameTooLong
    else match es.lookup name with
      | none => .ok .absent
      | some (link target) => .ok (.link target)
      | some _ => .ok (.to (loc ++ [name]))
  | _ => .error .notADirectory

/-- Where a walk stops: at its end, or at a link in the folder `loc` with names still to go. -/
inductive Stop
  | arrived (loc : Location)
  | link (loc : Location) (target : Path) (rest : List Name)

def walk (root : Node) : Location → List Name → Except IoError Stop
  | loc, [] => .ok (.arrived loc)
  | loc, name :: rest =>
    match root.move loc name with
    | .error e => .error e
    | .ok .absent => .error .notFound
    | .ok (.link target) => .ok (.link loc target rest)
    | .ok (.to loc') => walk root loc' rest

def maxLinks : Nat := 40

/-- The folder from which a link's target is read. -/
def linkBase (loc : Location) (target : Path) : Location :=
  if target.isAbsolute then [] else loc

/-- Follows the links of a walk as long as `links` lasts. -/
def resolve (root : Node) : (links : Nat) → Location → List Name → Except IoError Location
  | links, loc, names =>
    match root.walk loc names with
    | .error e => .error e
    | .ok (.arrived loc') => .ok loc'
    | .ok (.link loc' target rest) =>
      match links with
      | 0 => .error .tooManyLinks
      | n + 1 => resolve root n (linkBase loc' target) (target.names ++ rest)

/-- Where a walk that may create its last name stops. -/
inductive Aim
  | place (loc : Location)
  | link (loc : Location) (target : Path) (rest : List Name)

/-- A walk towards a file that need not exist yet. The last name may be absent; a path that ends
in a slash or a dot name, or leads to a folder, names no file. -/
def aim (root : Node) : Location → List Name → Except IoError Aim
  | loc, names =>
    match root.at? loc with
    | some (folder _) =>
      match names with
      | [] => .error .isADirectory
      | [_, []] => .error .isADirectory
      | [name] =>
        if name = [] ∨ name = Name.here ∨ name = Name.parent then .error .isADirectory
        else match root.move loc name with
          | .error e => .error e
          | .ok .absent => .ok (.place (loc ++ [name]))
          | .ok (.link target) => .ok (.link loc target [])
          | .ok (.to loc') =>
            match root.at? loc' with
            | some (file _) => .ok (.place loc')
            | _ => .error .isADirectory
      | name :: rest =>
        match root.move loc name with
        | .error e => .error e
        | .ok .absent => .error .notFound
        | .ok (.link target) => .ok (.link loc target rest)
        | .ok (.to loc') => aim root loc' rest
    | _ => .error .notADirectory

/-- Where a file would be created, links followed as long as `links` lasts. -/
def place (root : Node) : (links : Nat) → Location → List Name → Except IoError Location
  | links, loc, names =>
    match root.aim loc names with
    | .error e => .error e
    | .ok (.place loc') => .ok loc'
    | .ok (.link loc' target rest) =>
      match links with
      | 0 => .error .tooManyLinks
      | n + 1 => place root n (linkBase loc' target) (target.names ++ rest)

end Node

namespace FileSystem

def base (fs : FileSystem) (p : Path) : Location :=
  if p.isAbsolute then [] else fs.current

/-- What is wrong with the text of a path, whatever the tree. -/
def refusal? (p : Path) : Option IoError :=
  if Byte.nul ∈ p then some .nulInPath
  else if p = [] then some .notFound
  else if p.isTooLong then some .nameTooLong
  else none

/-- The location that a path leads to, every link followed. -/
def locate (fs : FileSystem) (p : Path) : Except IoError Location :=
  match refusal? p with
  | some e => .error e
  | none => fs.root.resolve Node.maxLinks (fs.base p) p.names

/-- The node that a path leads to, and what the disk has to say of it. -/
def reached? (fs : FileSystem) (p : Path) : Except IoError (Node × DiskEntry) :=
  match fs.locate p with
  | .error e => .error e
  | .ok loc =>
    match fs.root.at? loc with
    | some n => .ok (n, fs.disk loc)
    | none => .error .notFound

def node? (fs : FileSystem) (p : Path) : Except IoError Node := (fs.reached? p).map Prod.fst

theorem node?_eq_ok_iff {fs : FileSystem} {p : Path} {n : Node} :
    fs.node? p = .ok n ↔ ∃ loc, fs.locate p = .ok loc ∧ fs.root.at? loc = some n := by
  rw [node?, reached?]
  cases fs.locate p with
  | error e => simp [Except.map]
  | ok loc => cases hloc : fs.root.at? loc <;> simp [Except.map, hloc]

def isFile (fs : FileSystem) (p : Path) : Bool :=
  match fs.node? p with
  | .ok (.file _) => true
  | _ => false

/-- Opens a path for reading. A folder opens, and its first read fails. -/
def openStream (fs : FileSystem) (p : Path) : Except IoError Stream :=
  match fs.reached? p with
  | .error e => .error e
  | .ok (.file content, d) => d.openStream content
  | .ok _ => .ok { bytes := [], ending := some .isADirectory }

/-- The length that is listed for what a path leads to, whether or not it can be opened. -/
def length? (fs : FileSystem) (p : Path) : Option Nat :=
  match fs.reached? p with
  | .ok (.file content, d) => some (d.fileLength content)
  | .ok (_, d) => some d.folderLength
  | .error _ => none

/-- The whole text of a file. -/
def readText (fs : FileSystem) (p : Path) : Except IoError (List Char) :=
  match fs.openStream p with
  | .error e => .error e
  | .ok s =>
    match s.error? with
    | some e => .error e
    | none =>
      match Utf8.decode? s.bytes with
      | some cs => .ok cs
      | none => .error .notUtf8

end FileSystem

end TextHygiene
