import TextHygiene.Tree.Resolve

/-! Changing a file system: creating and writing files, building folders and links, and taking
entries away. -/

namespace TextHygiene.FileSystem

/-- A file system with an empty current folder. -/
def empty : FileSystem :=
  let name : Name := Path.ofString "work"
  { root := .folder [(name, .folder [])], current := [name] }

/-- Where opening a path for writing would put its file: at a file, or where there is nothing
yet. -/
def target (fs : FileSystem) (p : Path) : Except IoError Location :=
  match refusal? p with
  | some e => .error e
  | none =>
    match fs.root.place Node.maxLinks (fs.base p) p.names with
    | .error e => .error e
    | .ok loc =>
      match (fs.disk loc).writeRefusal with
      | some e => .error e.toIoError
      | none => .ok loc

def putFile (fs : FileSystem) (loc : Location) (content : Bytes) : FileSystem :=
  { fs with root := fs.root.put loc (.file content) }

/-- Writes a file, in place of what it held before. -/
def write (fs : FileSystem) (p : Path) (content : Bytes) : Except IoError FileSystem :=
  (fs.target p).map (fs.putFile · content)

/-- Makes the folders that are missing along a walk and says where it ends. -/
def makeFolders (fs : FileSystem) : Location → List Name → Option (FileSystem × Location)
  | loc, [] => some (fs, loc)
  | loc, name :: rest =>
    match fs.root.move loc name with
    | .error _ => none
    | .ok (.to loc') => makeFolders fs loc' rest
    | .ok .absent =>
      makeFolders { fs with root := fs.root.put (loc ++ [name]) (.folder []) } (loc ++ [name]) rest
    | .ok (.link t) =>
      match fs.root.resolve Node.maxLinks (Node.linkBase loc t) t.names with
      | .error _ => none
      | .ok loc' => makeFolders fs loc' rest

/-- The path of the folder that holds the last name of a path. -/
def parentNames (p : Path) : List Name := (p.segments.filter (!·.isEmpty)).dropLast

def lastName? (p : Path) : Option Name := (p.segments.filter (!·.isEmpty)).getLast?

def addFolder (fs : FileSystem) (p : Path) : FileSystem :=
  match fs.makeFolders (fs.base p) p.names with
  | some (fs', _) => fs'
  | none => fs

/-- Writes a file below folders that are made where they are missing. -/
def addFile (fs : FileSystem) (p : Path) (content : Bytes) : FileSystem :=
  let fs' := match fs.makeFolders (fs.base p) (parentNames p) with
    | some (made, _) => made
    | none => fs
  match fs'.write p content with
  | .ok done => done
  | .error _ => fs'

/-- Adds a symbolic link, unless its name is taken, below folders that are made where they are
missing. -/
def addLink (fs : FileSystem) (p t : Path) : FileSystem :=
  match fs.makeFolders (fs.base p) (parentNames p), lastName? p with
  | some (made, loc), some name =>
    match made.root.move loc name with
    | .ok .absent => { made with root := made.root.put (loc ++ [name]) (.link t) }
    | _ => made
  | _, _ => fs

/-- Takes away what a path names; a link is taken away itself. -/
def remove (fs : FileSystem) (p : Path) : FileSystem :=
  match fs.root.resolve Node.maxLinks (fs.base p) (parentNames p), lastName? p with
  | .ok loc, some name => { fs with root := fs.root.erase (loc ++ [name]) }
  | _, _ => fs

end TextHygiene.FileSystem
