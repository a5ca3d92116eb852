import TextHygiene.Detector

/-! What the rules are about, said of whole lines and without a machine. A tidy text is made of
lines that each end in one line feed, are plain ASCII, and are indented by whole levels. -/

namespace TextHygiene

namespace Line

/-- The line starts with some spaces and then something else, and the spaces make no whole number
of levels. -/
def IsMisindented (t : TabSize) (line : Bytes) : Prop :=
  ∃ (k : Nat) (b : UInt8) (rest : Bytes),
    line = List.replicate k Byte.space ++ b :: rest ∧ b ≠ Byte.space ∧ ¬ t.width ∣ k

def IsPlain (line : Bytes) : Prop :=
  ∀ b ∈ line, b < 0x80 ∧ b ≠ Byte.tab ∧ b ≠ Byte.lineFeed ∧ b ≠ Byte.carriageReturn

/-- An empty line, or one that starts with whole levels of spaces and a byte that is no space, and
does not end in a space. -/
def IsTidy (t : TabSize) (line : Bytes) : Prop :=
  IsPlain line ∧
    (line = [] ∨
      ∃ (k : Nat) (b : UInt8) (rest : Bytes),
        line = List.replicate (k * t.width) Byte.space ++ b :: rest ∧ b ≠ Byte.space ∧
          line.getLast? ≠ some Byte.space)

end Line

/-- The text of a list of lines, each ended by a line feed. -/
def Bytes.ofLines (lines : List Bytes) : Bytes := lines.flatMap (· ++ [Byte.lineFeed])

/-- A text of one tidy line or more, of which the last is not empty unless it is the only one. -/
def Bytes.IsTidy (t : TabSize) (d : Bytes) : Prop :=
  ∃ lines : List Bytes, lines ≠ [] ∧ d = Bytes.ofLines lines ∧ (∀ l ∈ lines, Line.IsTidy t l) ∧
    (lines.getLast? ≠ some [] ∨ lines.length = 1)

/-- The line of the byte that follows `before`. -/
def Bytes.lineAfter (before : Bytes) : Nat := 1 + before.lineFeeds

end TextHygiene
