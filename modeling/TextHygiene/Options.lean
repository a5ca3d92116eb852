import TextHygiene.Settings

/-! What a check can be asked for: the settings, a size limit, how to scan, how many threads to
use and how to write the report. -/

namespace TextHygiene

/-- Each rule in a scan of its own, or all rules in one pass. -/
inductive Engine
  | perRule
  | fused
deriving DecidableEq

namespace Engine

def name : Engine → String
  | perRule => "per-rule"
  | fused => "fused"

def ofName? (s : String) : Option Engine := [perRule, fused].find? (·.name = s)

end Engine

inductive Format
  | text
  | json
deriving DecidableEq

namespace Format

def name : Format → String
  | text => "text"
  | json => "json"

def ofName? (s : String) : Option Format := [text, json].find? (·.name = s)

end Format

/-- A tab size of 0 is possible here; the check refuses it. No thread count means one thread for
each processor. -/
structure Options where
  tabSize : Nat
  rules : List Rule
  extensions : List String
  maxFileSize : Option Nat := none
  engine : Engine := .perRule
  format : Format := .text
  threads : Option Nat := none
deriving DecidableEq

namespace Options

def ofSettings (s : Settings) : Options :=
  { tabSize := s.tabSize.width, rules := s.rules, extensions := s.extensions }

def default : Options := ofSettings .default

end Options

end TextHygiene
