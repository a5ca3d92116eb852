import TextHygiene.Finding
import TextHygiene.Json
import TextHygiene.Options

/-! Reports of findings. The text report has the message of each finding on a line of its own; the
JSON report is one array with one object for each finding. A report is written in pieces. -/

namespace TextHygiene

/-- What the JSON report says of a finding. -/
structure Item where
  path : String
  rule : String
  line : Option Nat
  count : Option Nat
  message : String
deriving DecidableEq

namespace Item

/-- Read errors have no line, and only the final-newline rule has a count. -/
def ofFinding (f : Finding) : Item where
  path := f.failure.path.display
  rule := f.rule.name
  line := f.failure.cause.fault?.bind Fault.line?
  count := f.failure.cause.fault?.bind Fault.count?
  message := f.failure.message

def field (key : String) (j : Json) : List Char × Json := (key.toList, j)

/-- Numbers that an item does not have are left out. -/
def toJson (i : Item) : Json :=
  .object (
    [field "path" (.string i.path.toList), field "rule" (.string i.rule.toList)]
    ++ (i.line.map fun n => field "line" (.ofNat n)).toList
    ++ (i.count.map fun n => field "count" (.ofNat n)).toList
    ++ [field "message" (.string i.message.toList)])

end Item

namespace Report

def itemText (f : Finding) : List Char := (Item.ofFinding f).toJson.render

def itemPieces : List Finding → List (List Char)
  | [] => []
  | f :: rest => itemText f :: rest.flatMap fun g => [[','], itemText g]

def line (f : Finding) : List Char := f.failure.message.toList ++ ['\n']

/-- The pieces of a report in the order in which they are written. -/
def pieces : Format → List Finding → List (List Char)
  | .text, fs => fs.map line
  | .json, fs => ['['] :: (itemPieces fs ++ [[']', '\n']])

def text (format : Format) (fs : List Finding) : List Char := (pieces format fs).flatten

def bytes (format : Format) (fs : List Finding) : Bytes := Utf8.encode (text format fs)

end Report

end TextHygiene
