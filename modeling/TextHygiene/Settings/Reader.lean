import TextHygiene.Settings
import TextHygiene.Toml.Number
import TextHygiene.Toml.Text
import TextHygiene.Tree.Resolve

/-! Reading settings from TOML text. A document is a list of lines, each a key with a whole number
or an array of strings, and anything else that TOML allows is no settings document. -/

namespace TextHygiene

namespace Toml

/-- The strings of an array after its opening bracket; a comma may follow the last of them. Each
string costs one character at least. -/
def strings? : (fuel : Nat) → Reader (List String)
  | 0, _ => none
  | n + 1, cs =>
    match skipGaps cs with
    | ']' :: rest => some ([], rest)
    | cs' => do
      let (s, r) ← string? cs'
      match skipGaps r with
      | ',' :: r' => (strings? n r').map fun (ss, rest) => (String.ofList s :: ss, rest)
      | ']' :: rest => some ([String.ofList s], rest)
      | _ => none

def stringArray? : Reader (List String)
  | '[' :: rest => strings? (rest.length + 1) rest
  | _ => none

def isKeyChar (c : Char) : Bool := c.isAlphanum || c = '_' || c = '-'

/-- A key, bare or in quotes, but on one line. -/
def key? : Reader String
  | '"' :: rest => (basicBody? rest).map fun (k, r) => (String.ofList k, r)
  | '\'' :: rest => (literalBody? rest).map fun (k, r) => (String.ofList k, r)
  | cs =>
    let k := cs.takeWhile isKeyChar
    if k.isEmpty then none else some (String.ofList k, cs.dropWhile isKeyChar)

end Toml

namespace Settings

open Toml

/-- Reads the value of a key into a document that does not have it yet. -/
def Document.field? (d : Document) (key : String) (cs : List Char) : Option (Document × List Char) :=
  if key = "tab_size" ∧ d.tabSize.isNone then
    (natural? cs).map fun (n, rest) => ({ d with tabSize := some n }, rest)
  else if key = "extensions" ∧ d.extensions.isNone then
    (stringArray? cs).map fun (es, rest) => ({ d with extensions := some es }, rest)
  else if key = "rules" ∧ d.rules.isNone then
    (stringArray? cs).map fun (rs, rest) => ({ d with rules := some rs }, rest)
  else none

/-- One line with a key and a value. -/
def Document.line? (d : Document) (cs : List Char) : Option (Document × List Char) := do
  let (key, r₁) ← key? (skipBlanks cs)
  match skipBlanks r₁ with
  | '=' :: r₂ =>
    let (d', r₃) ← d.field? key (skipBlanks r₂)
    let rest ← afterLine? r₃
    return (d', rest)
  | _ => none

/-- Each line costs one character at least. -/
def Document.lines? : (fuel : Nat) → Document → List Char → Option Document
  | _, d, [] => some d
  | 0, _, _ => none
  | n + 1, d, cs =>
    match afterLine? cs with
    | some rest => lines? n d rest
    | none =>
      match d.line? cs with
      | some (d', rest) => lines? n d' rest
      | none => none

/-- A byte order mark may stand in front of a document. -/
def Document.parse? : List Char → Option Document
  | '\uFEFF' :: cs => lines? (cs.length + 1) {} cs
  | cs => lines? (cs.length + 1) {} cs

/-- The settings of a TOML text that comes from `origin`. -/
def parse (origin : Path) (text : List Char) : Except SettingsError Settings :=
  ofText Document.parse? origin text

end Settings

def FileSystem.loadSettings (fs : FileSystem) (p : Path) : Except SettingsError Settings :=
  match fs.readText p with
  | .error e => .error (.unreadable p e)
  | .ok text => Settings.parse p text

end TextHygiene
