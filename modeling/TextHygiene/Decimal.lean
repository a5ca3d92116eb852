/-! Decimal numerals: the digits of a number, and the reading of an unsigned 64-bit numeral with
the three ways in which it can fail. -/

namespace TextHygiene.Decimal

def digits (n : Nat) : List Char := Nat.toDigits 10 n

def text (n : Nat) : String := String.ofList (digits n)

def digit? (c : Char) : Option Nat :=
  if c.isDigit then some (c.toNat - '0'.toNat) else none

inductive NumeralError
  | empty
  | invalidDigit
  | tooLarge
deriving DecidableEq

def NumeralError.message : NumeralError → String
  | .empty => "cannot parse integer from empty string"
  | .invalidDigit => "invalid digit found in string"
  | .tooLarge => "number too large to fit in target type"

def wordLimit : Nat := UInt64.size

/-- Reads on from the value of the digits before; the first offending character decides. -/
def wordFrom (value : Nat) : List Char → Except NumeralError Nat
  | [] => .ok value
  | c :: rest =>
    match digit? c with
    | none => .error .invalidDigit
    | some d =>
      if 10 * value + d < wordLimit then wordFrom (10 * value + d) rest else .error .tooLarge

/-- An optional plus sign and at least one digit, with a value below 2^64. -/
def word : List Char → Except NumeralError Nat
  | [] => .error .empty
  | ['+'] => .error .invalidDigit
  | '+' :: rest => wordFrom 0 rest
  | cs => wordFrom 0 cs

end TextHygiene.Decimal
