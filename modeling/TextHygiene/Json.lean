import TextHygiene.Decimal
import TextHygiene.Hexadecimal

/-! JSON values and their compact text. A number is kept as its numeral; a string is written with
short escapes where there are any, and other control characters as four hexadecimal digits. -/

namespace TextHygiene

inductive Json
  | null
  | bool (b : Bool)
  | number (numeral : List Char)
  | string (s : List Char)
  | array (items : List Json)
  | object (fields : List (List Char × Json))
deriving Inhabited

namespace Json

def ofNat (n : Nat) : Json := number (Decimal.digits n)

/-- Two hexadecimal digits suffice, as control characters are below 32. -/
def escape (c : Char) : List Char :=
  if c = '"' then ['\\', '"']
  else if c = '\\' then ['\\', '\\']
  else if c = '\x08' then ['\\', 'b']
  else if c = '\x0c' then ['\\', 'f']
  else if c = '\n' then ['\\', 'n']
  else if c = '\r' then ['\\', 'r']
  else if c = '\t' then ['\\', 't']
  else if c.toNat < 0x20 then
    ['\\', 'u', '0', '0', Hexadecimal.digit (c.toNat / 16), Hexadecimal.digit (c.toNat % 16)]
  else [c]

def quote (s : List Char) : List Char := '"' :: (s.flatMap escape ++ ['"'])

mutual

def render : Json → List Char
  | null => ['n', 'u', 'l', 'l']
  | bool true => ['t', 'r', 'u', 'e']
  | bool false => ['f', 'a', 'l', 's', 'e']
  | number numeral => numeral
  | string s => quote s
  | array items => '[' :: (renderItems items ++ [']'])
  | object fields => '\x7b' :: (renderFields fields ++ ['\x7d'])
termination_by structural j => j

def renderItems : List Json → List Char
  | [] => []
  | [j] => j.render
  | j :: rest => j.render ++ ',' :: renderItems rest
termination_by structural js => js

def renderFields : List (List Char × Json) → List Char
  | [] => []
  | [(k, j)] => quote k ++ ':' :: j.render
  | (k, j) :: rest => quote k ++ ':' :: (j.render ++ ',' :: renderFields rest)
termination_by structural fs => fs

end

end Json

end TextHygiene
