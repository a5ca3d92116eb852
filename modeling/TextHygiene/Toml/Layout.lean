/-! The layout of a TOML text: blanks, line breaks, comments and the ends of lines. Every function
here takes something off the front of a text and never makes it longer. -/

namespace TextHygiene.Toml

/-- A reader takes what it reads off the front of a text. -/
abbrev Reader (α : Type) := List Char → Option (α × List Char)

def isBlank (c : Char) : Bool := c = ' ' || c = '\t'

def skipBlanks (cs : List Char) : List Char := cs.dropWhile isBlank

/-- What follows a line break at the start of a text. -/
def afterBreak? : List Char → Option (List Char)
  | '\n' :: rest => some rest
  | '\r' :: '\n' :: rest => some rest
  | _ => none

/-- Control characters other than the tab stand in no comment and no string. -/
def isPrintable (c : Char) : Bool := c = '\t' || (0x20 ≤ c.toNat && c.toNat ≠ 0x7F)

/-- The rest of a line from its comment on, if it has one, with the line break kept. -/
def skipComment : List Char → List Char
  | '#' :: rest => rest.dropWhile isPrintable
  | cs => cs

/-- The end of a line: blanks, a comment, and a line break or the end of the text. -/
def afterLine? (cs : List Char) : Option (List Char) :=
  match skipComment (skipBlanks cs) with
  | [] => some []
  | cs' => afterBreak? cs'

theorem length_afterBreak? {cs rest : List Char} (h : afterBreak? cs = some rest) :
    rest.length < cs.length := by
  unfold afterBreak? at h
  split at h <;> cases h <;> simp only [List.length_cons] <;> omega

theorem length_skipBlanks (cs : List Char) : (skipBlanks cs).length ≤ cs.length :=
  (List.dropWhile_sublist _).length_le

/-- Blanks and line breaks. -/
def skipWhite : List Char → List Char
  | '\r' :: '\n' :: rest => skipWhite rest
  | c :: rest => if isBlank c ∨ c = '\n' then skipWhite rest else c :: rest
  | [] => []

theorem length_skipWhite (cs : List Char) : (skipWhite cs).length ≤ cs.length := by
  fun_induction skipWhite cs <;> simp_all only [List.length_cons, Nat.le_refl] <;> omega

/-- Blanks, line breaks and comments between the items of an array. -/
def skipGaps : List Char → List Char
  | '\r' :: '\n' :: rest => skipGaps rest
  | c :: rest =>
    if isBlank c ∨ c = '\n' then skipGaps rest
    else if c = '#' then skipGaps (rest.dropWhile isPrintable)
    else c :: rest
  | [] => []
termination_by cs => cs.length
decreasing_by
  · simp only [List.length_cons]; omega
  · simp
  · have := (List.dropWhile_sublist isPrintable (l := rest)).length_le
    simp only [List.length_cons]
    omega

end TextHygiene.Toml
