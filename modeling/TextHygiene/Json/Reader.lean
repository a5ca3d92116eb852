import TextHygiene.Json

/-! Reading JSON texts: a value with space around it, and nothing else. The reader takes every text
of the grammar, so a text it refuses is no JSON document. -/

namespace TextHygiene.Json

def isSpace (c : Char) : Bool := c = ' ' || c = '\t' || c = '\n' || c = '\r'

def skipSpace (cs : List Char) : List Char := cs.dropWhile isSpace

/-- The value of four hexadecimal digits. -/
def unit? (a b c d : Char) : Option Nat :=
  match Hexadecimal.value? a, Hexadecimal.value? b, Hexadecimal.value? c, Hexadecimal.value? d with
  | some a, some b, some c, some d => some (((a * 16 + b) * 16 + c) * 16 + d)
  | _, _, _, _ => none

def isHighSurrogate (n : Nat) : Bool := 0xD800 ≤ n && n < 0xDC00

def isLowSurrogate (n : Nat) : Bool := 0xDC00 ≤ n && n < 0xE000

def shortEscape? : Char → Option Char
  | '"' => some '"'
  | '\\' => some '\\'
  | '/' => some '/'
  | 'b' => some '\x08'
  | 'f' => some '\x0c'
  | 'n' => some '\n'
  | 'r' => some '\r'
  | 't' => some '\t'
  | _ => none

/-- Puts a character in front of a string that was read. -/
def consChar (c : Char) : Option (List Char × List Char) → Option (List Char × List Char)
  | none => none
  | some (s, rest) => some (c :: s, rest)

/-- A string after its opening quote. Characters above U+FFFF are escaped as surrogate pairs, and
a surrogate that stands alone is refused. -/
def stringBody? : List Char → Option (List Char × List Char)
  | [] => none
  | '"' :: rest => some ([], rest)
  | '\\' :: 'u' :: a :: b :: c :: d :: rest =>
    match unit? a b c d with
    | none => none
    | some n =>
      if isHighSurrogate n then
        match rest with
        | '\\' :: 'u' :: e :: f :: g :: h :: rest' =>
          match unit? e f g h with
          | none => none
          | some m =>
            if isLowSurrogate m then
              consChar (Char.ofNat (0x10000 + (n - 0xD800) * 0x400 + (m - 0xDC00)))
                (stringBody? rest')
            else none
        | _ => none
      else if isLowSurrogate n then none
      else consChar (Char.ofNat n) (stringBody? rest)
  | '\\' :: c :: rest =>
    match shortEscape? c with
    | none => none
    | some e => consChar e (stringBody? rest)
  | c :: rest => if c = '\\' ∨ c.toNat < 0x20 then none else consChar c (stringBody? rest)

/-- One or more digits, as many as there are. -/
def digits? (cs : List Char) : Option (List Char × List Char) :=
  let ds := cs.takeWhile Char.isDigit
  if ds.isEmpty then none else some (ds, cs.dropWhile Char.isDigit)

/-- Digits without a leading zero. -/
def integer? : List Char → Option (List Char × List Char)
  | '0' :: rest => some (['0'], rest)
  | cs => digits? cs

def fraction? : List Char → Option (List Char × List Char)
  | '.' :: rest => (digits? rest).map fun (ds, r) => ('.' :: ds, r)
  | cs => some ([], cs)

def exponent? : List Char → Option (List Char × List Char)
  | c :: rest =>
    if c = 'e' ∨ c = 'E' then
      match rest with
      | '+' :: r => (digits? r).map fun (ds, r') => (c :: '+' :: ds, r')
      | '-' :: r => (digits? r).map fun (ds, r') => (c :: '-' :: ds, r')
      | r => (digits? r).map fun (ds, r') => (c :: ds, r')
    else some ([], c :: rest)
  | [] => some ([], [])

def unsigned? (cs : List Char) : Option (List Char × List Char) := do
  let (i, r₁) ← integer? cs
  let (f, r₂) ← fraction? r₁
  let (e, r₃) ← exponent? r₂
  return (i ++ f ++ e, r₃)

def numeral? : List Char → Option (List Char × List Char)
  | '-' :: rest => (unsigned? rest).map fun (n, r) => ('-' :: n, r)
  | cs => unsigned? cs

mutual

/-- A value at the start of a text and what follows it. -/
def value? : (fuel : Nat) → List Char → Option (Json × List Char)
  | 0, _ => none
  | n + 1, cs =>
    match skipSpace cs with
    | '"' :: rest => (stringBody? rest).map fun (s, r) => (string s, r)
    | '[' :: rest =>
      match skipSpace rest with
      | ']' :: r => some (array [], r)
      | _ => (items? n rest).map fun (js, r) => (array js, r)
    | '\x7b' :: rest =>
      match skipSpace rest with
      | '\x7d' :: r => some (object [], r)
      | _ => (fields? n rest).map fun (fs, r) => (object fs, r)
    | 'n' :: 'u' :: 'l' :: 'l' :: r => some (null, r)
    | 't' :: 'r' :: 'u' :: 'e' :: r => some (bool true, r)
    | 'f' :: 'a' :: 'l' :: 's' :: 'e' :: r => some (bool false, r)
    | cs' => (numeral? cs').map fun (d, r) => (number d, r)

/-- The items of an array up to its closing bracket. -/
def items? : (fuel : Nat) → List Char → Option (List Json × List Char)
  | 0, _ => none
  | n + 1, cs => do
    let (j, rest) ← value? n cs
    match skipSpace rest with
    | ',' :: r => (items? n r).map fun (js, r') => (j :: js, r')
    | ']' :: r => some ([j], r)
    | _ => none

/-- The fields of an object up to its closing brace. -/
def fields? : (fuel : Nat) → List Char → Option (List (List Char × Json) × List Char)
  | 0, _ => none
  | n + 1, cs =>
    match skipSpace cs with
    | '"' :: rest => do
      let (k, r₁) ← stringBody? rest
      match skipSpace r₁ with
      | ':' :: r₂ =>
        let (j, r₃) ← value? n r₂
        match skipSpace r₃ with
        | ',' :: r => (fields? n r).map fun (fs, r') => ((k, j) :: fs, r')
        | '\x7d' :: r => some ([(k, j)], r)
        | _ => none
      | _ => none
    | _ => none

end

/-- Each level of nesting and each item costs one character at least, so twice the length of the
text is fuel enough. -/
def read? (cs : List Char) : Option Json :=
  match value? (2 * cs.length + 2) cs with
  | some (j, rest) => if (skipSpace rest).isEmpty then some j else none
  | none => none

end TextHygiene.Json
