import TextHygiene.Tree.Resolve

/-! Finding the files to check below a root. Hidden entries are left out with all that is below
them, as are folders whose paths are too long to be listed; links are not followed, and the result
is sorted name by name. -/

namespace TextHygiene

namespace Name

/-- Whether a name ends in one of the extensions, the case of ASCII letters aside. -/
def hasExtension (extensions : List String) (n : Name) : Bool :=
  match n.extension?.bind Utf8.decode? with
  | none => false
  | some ext => extensions.any fun want => want.toList.map Char.toLower = ext.map Char.toLower

end Name

namespace Node

mutual

/-- The locations below a node of the files that are wanted by name. A folder is listed by its
path. -/
def sources (wanted : Name → Bool) : (path : Path) → Node → List Location
  | path, folder es => if path.isTooLong then [] else sourcesIn wanted path es
  | _, _ => []
termination_by structural _ n => n

def sourcesIn (wanted : Name → Bool) : (path : Path) → List (Name × Node) → List Location
  | _, [] => []
  | path, (name, n) :: rest =>
    (if name.isHidden then []
     else
      match n with
      | file _ => if wanted name then [[name]] else []
      | _ => (n.sources wanted (path.join name)).map (name :: ·)) ++ sourcesIn wanted path rest
termination_by structural _ es => es

end

end Node

namespace Location

/-- Names are compared one by one, each byte by byte. -/
def le (a b : Location) : Bool := decide (a ≤ b)

def sort (ls : List Location) : List Location := ls.mergeSort le

/-- The path of a location below a root path. -/
def below (root : Path) (loc : Location) : Path := loc.foldl Path.join root

end Location

/-- The files to check for a root path: the file itself, or the sources of a folder. -/
def FileSystem.discover (fs : FileSystem) (extensions : List String) (root : Path) : List Path :=
  match fs.node? root with
  | .ok (.file _) => [root]
  | .ok n => (Location.sort (Node.sources (·.hasExtension extensions) root n)).map (Location.below root)
  | .error _ => []

end TextHygiene
