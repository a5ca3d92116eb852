import TextHygiene.Command.Run

/-! The program. It takes a picture of the paths that the command line names, runs the command on
it, and carries out what the run leaves behind. -/

namespace TextHygiene.Disk

/-- The tree below an entry of the disk, and the files in it that cannot be read: of these the tree
has the length, and the disk the refusal. -/
structure Picture where
  node : Node
  locked : List Location := []

/-- What there is below an entry, devices left out. -/
partial def picture (entry : IO.FS.DirEntry) : IO (Option Picture) := do
  try
    let found ← entry.path.symlinkMetadata
    match found.type with
    | .file =>
      try
        return some { node := .file (← IO.FS.readBinFile entry.path).toList }
      catch _ =>
        let hidden := List.replicate found.byteSize.toNat Byte.nul
        return some { node := .file hidden, locked := [[]] }
    | .dir =>
      let mut entries := #[]
      let mut locked := []
      for child in ← entry.path.readDir do
        if let some below ← picture child then
          let name := Path.ofString child.fileName
          entries := entries.push (name, below.node)
          locked := locked ++ below.locked.map (name :: ·)
      return some { node := .folder entries.toList, locked := locked }
    | .symlink =>
      return some { node := .link (Path.ofString (← IO.FS.realPath entry.path).toString) }
    | .other => return none
  catch _ => return none

/-- Adds what is at a path, and the folder that holds it, to a file system. -/
def add (fs : FileSystem) (p : String) : IO FileSystem := do
  if p.isEmpty then return fs
  let here ← IO.currentDir
  let fs ← match (here / p).parent with
    | some folder =>
      if ← folder.isDir then pure (fs.addFolder (Path.ofString folder.toString)) else pure fs
    | none => pure fs
  if !(← (here / p).pathExists) then return fs
  let real ← IO.FS.realPath (here / p)
  let entry : IO.FS.DirEntry := match real.parent, real.fileName with
    | some folder, some name => { root := folder, fileName := name }
    | _, _ => { root := real, fileName := "." }
  match ← picture entry with
  | none => return fs
  | some { node, locked } =>
    let fs := match node with
      | .file content => fs.addFile (Path.ofString p) content
      | _ => fs.addFolder (Path.ofString p)
    match fs.locate (Path.ofString p) with
    | .ok loc =>
      let isLocked (l : Location) : Bool := locked.any fun below => loc ++ below = l
      let disk (l : Location) : DiskEntry :=
        if isLocked l then { readRefusal := some .permissionDenied } else fs.disk l
      return { fs with root := fs.root.put loc node, disk := disk }
    | .error _ => return fs

/-- The paths that a check looks at, each given as a text. -/
def named (a : Command.CheckArguments) : List String :=
  let paths := [a.input.getD (Path.ofString "."), a.config.getD (Path.ofString "fmtcheck.toml")]
  (paths ++ a.output.toList).map Path.display

/-- The current folder of the disk, with what the arguments name. -/
def load (arguments : List Command.Argument) : IO FileSystem := do
  let here := Path.ofString (← IO.currentDir).toString
  let fs : FileSystem := { root := .folder [], current := here.names }
  let fs := fs.addFolder here
  match Command.Invocation.ofArguments arguments with
  | .check a => (named a).foldlM add fs
  | _ => return fs

/-- Writes the report to the file that was asked for. -/
def store (out : Command.Outcome) (arguments : List Command.Argument) : IO Unit := do
  match Command.Invocation.ofArguments arguments with
  | .check { output := some p, .. } =>
    match out.errors, out.files.node? p with
    | [], .ok (.file content) => IO.FS.writeBinFile p.display content.toByteArray
    | _, _ => return
  | _ => return

/-- Short texts in the place of those that the libraries of the program supply. -/
def texts : Command.Texts where
  complaint _ := "no settings document"
  help _ := "Usage: fmtcheck <COMMAND>, one of check, rules and help\n"

end TextHygiene.Disk

open TextHygiene in
def main (arguments : List String) : IO UInt32 := do
  let arguments := arguments.map Command.Argument.ofString
  let fs ← Disk.load arguments
  let out := Command.run Disk.texts {} fs arguments
  (← IO.getStdout).write out.stdout.toByteArray
  Disk.store out arguments
  IO.eprint (Command.errorText out.errors)
  return UInt32.ofNat out.code
