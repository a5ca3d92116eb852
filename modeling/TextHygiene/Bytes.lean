/-! Byte strings, and the bytes that the rules, the paths and the arguments look for. -/

namespace TextHygiene

abbrev Bytes := List UInt8

namespace Byte

abbrev nul : UInt8 := 0x00
abbrev tab : UInt8 := 0x09
abbrev lineFeed : UInt8 := 0x0A
abbrev carriageReturn : UInt8 := 0x0D
abbrev space : UInt8 := 0x20
@[match_pattern] abbrev dash : UInt8 := 0x2D
abbrev dot : UInt8 := 0x2E
abbrev slash : UInt8 := 0x2F
abbrev equalsSign : UInt8 := 0x3D

/-- The bytes of ASCII are those below 128. -/
def isAscii (b : UInt8) : Bool := b < 0x80

end Byte

namespace Bytes

/-- The parts between separators, empty ones included; there is always one part. -/
def split (separator : UInt8) : Bytes → List Bytes
  | [] => [[]]
  | b :: rest =>
    if b = separator then [] :: split separator rest
    else match split separator rest with
      | [] => [[b]]
      | part :: parts => (b :: part) :: parts

/-- How many line feeds a byte string holds. -/
def lineFeeds (bs : Bytes) : Nat := bs.count Byte.lineFeed

/-- The lines of a text; what follows the last line feed counts as a line. -/
def lines (bs : Bytes) : List Bytes := bs.split Byte.lineFeed

/-- How many line feeds stand at the end. -/
def finalLineFeeds (bs : Bytes) : Nat := (bs.reverse.takeWhile (· = Byte.lineFeed)).length

theorem lineFeeds_append (a b : Bytes) : lineFeeds (a ++ b) = lineFeeds a + lineFeeds b := by
  simp [lineFeeds]

theorem split_ne_nil (separator : UInt8) (bs : Bytes) : split separator bs ≠ [] := by
  cases bs with
  | nil => simp [split]
  | cons b rest =>
    unfold split
    split
    · simp
    · split <;> simp

end Bytes

end TextHygiene
