import TextHygiene.Hexadecimal
import TextHygiene.Toml.Layout

/-! The strings of TOML. There are four spellings, with escapes or without, on one line or on
several, and each is read up to its closing quotes. -/

namespace TextHygiene.Toml

/-- The character with a number, surrogates left out. -/
def scalar? (n : Nat) : Option Char :=
  if n < 0xD800 ∨ (0xDFFF < n ∧ n < 0x110000) then some (Char.ofNat n) else none

/-- A character of exactly so many hexadecimal digits. -/
def hexChar? (count : Nat) (cs : List Char) : Option (Char × List Char) :=
  let ds := cs.take count
  if ds.length < count then none
  else do
    let values ← ds.mapM Hexadecimal.value?
    let c ← scalar? (values.foldl (fun v d => v * 16 + d) 0)
    return (c, cs.drop count)

/-- An escape after its backslash. -/
def escape? : Reader Char
  | 'b' :: rest => some ('\x08', rest)
  | 't' :: rest => some ('\t', rest)
  | 'n' :: rest => some ('\n', rest)
  | 'f' :: rest => some ('\x0c', rest)
  | 'r' :: rest => some ('\r', rest)
  | '"' :: rest => some ('"', rest)
  | '\\' :: rest => some ('\\', rest)
  | 'u' :: rest => hexChar? 4 rest
  | 'U' :: rest => hexChar? 8 rest
  | _ => none

theorem length_escape? {cs rest : List Char} {c : Char} (h : escape? cs = some (c, rest)) :
    rest.length < cs.length := by
  have hex : ∀ {k : Nat} {ds : List Char}, hexChar? k ds = some (c, rest) →
      rest.length ≤ ds.length := by
    intro k ds h
    simp only [hexChar?] at h
    split at h
    · cases h
    · simp only [bind, Option.bind_eq_some_iff, pure, Option.some.injEq, Prod.mk.injEq] at h
      obtain ⟨_, _, _, _, _, rfl⟩ := h
      simp
  unfold escape? at h
  split at h
  case h_8 => exact Nat.lt_succ_of_le (hex h)
  case h_9 => exact Nat.lt_succ_of_le (hex h)
  all_goals simp_all

/-- Puts characters in front of a string that was read. -/
def prepend (before : List Char) : Option (List Char × List Char) → Option (List Char × List Char)
  | none => none
  | some (s, rest) => some (before ++ s, rest)

/-- A string between double quotes, after the first of them. -/
def basicBody? : Reader (List Char)
  | [] => none
  | '"' :: rest => some ([], rest)
  | '\\' :: rest =>
    match _ : escape? rest with
    | some (c, rest') => prepend [c] (basicBody? rest')
    | none => none
  | c :: rest => if isPrintable c then prepend [c] (basicBody? rest) else none
termination_by cs => cs.length
decreasing_by
  · have := length_escape? ‹_›
    simp only [List.length_cons]
    omega
  · simp

/-- A string between single quotes, after the first of them. -/
def literalBody? : Reader (List Char)
  | [] => none
  | '\'' :: rest => some ([], rest)
  | c :: rest => if isPrintable c then prepend [c] (literalBody? rest) else none

/-- The end of a string of several lines: three quotes, before which one or two more belong to the
string. -/
def closing? (q : Char) (cs : List Char) : Option (List Char × List Char) :=
  let n := (cs.takeWhile (· = q)).length
  if n < 3 then none else some (List.replicate (min (n - 3) 2) q, cs.drop (min n 5))

/-- What follows a backslash at the end of a line: all white space up to the next text is left
out. -/
def afterContinuation? (cs : List Char) : Option (List Char) :=
  (afterBreak? (skipBlanks cs)).map skipWhite

theorem length_afterContinuation? {cs rest : List Char} (h : afterContinuation? cs = some rest) :
    rest.length < cs.length := by
  obtain ⟨r, hr, rfl⟩ := Option.map_eq_some_iff.mp h
  have h₁ := length_afterBreak? hr
  have h₂ := length_skipBlanks cs
  have h₃ := length_skipWhite r
  omega

/-- A string of several lines with escapes. -/
def longBasicBody? (cs : List Char) : Option (List Char × List Char) :=
  match closing? '"' cs with
  | some done => some done
  | none =>
    match cs with
    | [] => none
    | '\\' :: rest =>
      match _ : afterContinuation? rest with
      | some rest' => longBasicBody? rest'
      | none =>
        match _ : escape? rest with
        | some (c, rest') => prepend [c] (longBasicBody? rest')
        | none => none
    | '\n' :: rest => prepend ['\n'] (longBasicBody? rest)
    | '\r' :: '\n' :: rest => prepend ['\n'] (longBasicBody? rest)
    | c :: rest => if isPrintable c then prepend [c] (longBasicBody? rest) else none
termination_by cs.length
decreasing_by
  · have := length_afterContinuation? ‹_›
    simp only [List.length_cons]
    omega
  · have := length_escape? ‹_›
    simp only [List.length_cons]
    omega
  all_goals simp only [List.length_cons]; omega

def longLiteralBody? (cs : List Char) : Option (List Char × List Char) :=
  match closing? '\'' cs with
  | some done => some done
  | none =>
    match cs with
    | [] => none
    | '\n' :: rest => prepend ['\n'] (longLiteralBody? rest)
    | '\r' :: '\n' :: rest => prepend ['\n'] (longLiteralBody? rest)
    | c :: rest => if isPrintable c then prepend [c] (longLiteralBody? rest) else none
termination_by cs.length
decreasing_by all_goals simp only [List.length_cons]; omega

/-- A line break right after three opening quotes does not belong to the string. -/
def skipFirstBreak (cs : List Char) : List Char := (afterBreak? cs).getD cs

def string? : Reader (List Char)
  | '"' :: '"' :: '"' :: rest => longBasicBody? (skipFirstBreak rest)
  | '\'' :: '\'' :: '\'' :: rest => longLiteralBody? (skipFirstBreak rest)
  | '"' :: rest => basicBody? rest
  | '\'' :: rest => literalBody? rest
  | _ => none

end TextHygiene.Toml
