import TextHygiene.Hexadecimal
import TextHygiene.Toml.Layout

/-! The whole numbers of TOML in four radices, with single underscores between digits. They are
signed 64-bit numbers; only those that are not negative are taken here. -/

namespace TextHygiene.Toml

/-- Further digits, each after one underscore at most. -/
def moreDigits (isDigit : Char → Bool) : List Char → List Char × List Char
  | '_' :: c :: rest =>
    if isDigit c then (c :: (moreDigits isDigit rest).1, (moreDigits isDigit rest).2)
    else ([], '_' :: c :: rest)
  | c :: rest =>
    if isDigit c then (c :: (moreDigits isDigit rest).1, (moreDigits isDigit rest).2)
    else ([], c :: rest)
  | [] => ([], [])

def largest : Nat := UInt64.size / 2 - 1

/-- The value of a run of digits, up to the largest signed 64-bit number. -/
def inRadix? (radix : Nat) (isDigit : Char → Bool) : Reader Nat
  | c :: rest =>
    if isDigit c then
      let (ds, rest') := moreDigits isDigit rest
      let n := (c :: ds).foldl (fun v d => v * radix + (Hexadecimal.value? d).getD 0) 0
      if n ≤ largest then some (n, rest') else none
    else none
  | [] => none

/-- A decimal number has no leading zero. -/
def decimal? : Reader Nat
  | '0' :: rest => some (0, rest)
  | cs => inRadix? 10 Char.isDigit cs

/-- A whole number that is not negative. -/
def natural? : Reader Nat
  | '0' :: 'x' :: rest => inRadix? 16 (fun c => (Hexadecimal.value? c).isSome) rest
  | '0' :: 'o' :: rest => inRadix? 8 (fun c => '0' ≤ c && c ≤ '7') rest
  | '0' :: 'b' :: rest => inRadix? 2 (fun c => c = '0' || c = '1') rest
  | '+' :: rest => decimal? rest
  | '-' :: rest =>
    match decimal? rest with
    | some (0, rest') => some (0, rest')
    | _ => none
  | cs => decimal? cs

end TextHygiene.Toml
