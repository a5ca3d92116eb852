import TextHygiene.Utf8

/-! Paths are byte strings. Names are what stands between the slashes; a path is shown as its
lossy text, unquoted and otherwise as it was given. -/

namespace TextHygiene

abbrev Name := Bytes

abbrev Path := Bytes

namespace Name

abbrev here : Name := [Byte.dot]

abbrev parent : Name := [Byte.dot, Byte.dot]

def maxLength : Nat := 255

/-- What follows the last dot, if anything stands before that dot. -/
def extension? (n : Name) : Option Bytes :=
  let tail := n.reverse.takeWhile (· ≠ Byte.dot)
  let stem := n.reverse.drop (tail.length + 1)
  if stem.isEmpty then none else some tail.reverse

/-- A hidden name is a well-formed text that starts with a dot. -/
def isHidden (n : Name) : Bool :=
  n.head? = some Byte.dot && (Utf8.decode? n).isSome

end Name

namespace Path

/-- The length in bytes of the longest path that can be opened or listed. -/
def maxLength : Nat := 4095

def isTooLong (p : Path) : Bool := maxLength < p.length

def isAbsolute (p : Path) : Bool := p.head? = some Byte.slash

/-- The parts between slashes, empty ones included. -/
def segments (p : Path) : List Name := Bytes.split Byte.slash p

/-- The names of a path. A slash at the end leaves an empty name behind, which asks for a folder. -/
def names (p : Path) : List Name :=
  p.segments.filter (!·.isEmpty) ++ (if p.getLast? = some Byte.slash then [[]] else [])

/-- Puts a name below a path. -/
def join (p : Path) (n : Name) : Path :=
  if p.isEmpty || p.getLast? = some Byte.slash then p ++ n else p ++ Byte.slash :: n

def ofString (s : String) : Path := Utf8.encode s.toList

def display (p : Path) : String := String.ofList (Utf8.lossy p)

end Path

end TextHygiene
