import TextHygiene.Bytes

/-! UTF-8 as a byte machine. Decoding cuts a byte string into pieces: a character, or a maximal
ill-formed run, which the lossy reading shows as one U+FFFD and the strict reading refuses. -/

namespace TextHygiene.Utf8

/-- A character that has begun: the bits so far, the bytes still missing, and the range that the
next of them has to lie in. -/
structure Open where
  bits : Nat
  missing : Nat
  low : UInt8
  high : UInt8
deriving DecidableEq

/-- What the first byte of a longer character announces. Overlong forms, surrogates and values
above U+10FFFF are excluded by the range of the second byte. -/
def lead? (b : UInt8) : Option Open :=
  if b < 0xC2 then none
  else if b < 0xE0 then some ⟨b.toNat - 0xC0, 1, 0x80, 0xBF⟩
  else if b = 0xE0 then some ⟨0x0, 2, 0xA0, 0xBF⟩
  else if b = 0xED then some ⟨0xD, 2, 0x80, 0x9F⟩
  else if b < 0xF0 then some ⟨b.toNat - 0xE0, 2, 0x80, 0xBF⟩
  else if b = 0xF0 then some ⟨0, 3, 0x90, 0xBF⟩
  else if b < 0xF4 then some ⟨b.toNat - 0xF0, 3, 0x80, 0xBF⟩
  else if b = 0xF4 then some ⟨4, 3, 0x80, 0x8F⟩
  else none

/-- The first byte of a piece. -/
def start (b : UInt8) : List (Option Char) × Option Open :=
  if Byte.isAscii b then ([some (Char.ofNat b.toNat)], none)
  else match lead? b with
    | none => ([none], none)
    | some o => ([], some o)

/-- A byte outside the expected range ends the ill-formed run before it and starts a piece. -/
def feed : Option Open → UInt8 → List (Option Char) × Option Open
  | none, b => start b
  | some o, b =>
    if o.low ≤ b ∧ b ≤ o.high then
      let bits := o.bits * 64 + (b.toNat - 0x80)
      if o.missing ≤ 1 then ([some (Char.ofNat bits)], none)
      else ([], some ⟨bits, o.missing - 1, 0x80, 0xBF⟩)
    else (none :: (start b).1, (start b).2)

def piecesFrom : Option Open → Bytes → List (Option Char)
  | none, [] => []
  | some _, [] => [none]
  | o, b :: rest => (feed o b).1 ++ piecesFrom (feed o b).2 rest

/-- The characters of a byte string, with `none` for each maximal ill-formed run. -/
def pieces (bs : Bytes) : List (Option Char) := piecesFrom none bs

/-- Every ill-formed run is shown as one replacement character. -/
def lossy (bs : Bytes) : List Char := (pieces bs).map (·.getD '\uFFFD')

/-- The text of a well-formed byte string. -/
def decode? (bs : Bytes) : Option (List Char) :=
  let ps := pieces bs
  if ps.all Option.isSome then some (ps.filterMap id) else none

def encode (cs : List Char) : Bytes := cs.flatMap String.utf8EncodeChar

end TextHygiene.Utf8
