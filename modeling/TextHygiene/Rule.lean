/-! The six hygiene rules in their fixed order, with the names and titles under which they are
listed and configured. -/

namespace TextHygiene

inductive Rule
  | lineEndings
  | tabs
  | indentation
  | trailingWhitespace
  | finalNewline
  | plainAscii
deriving DecidableEq

namespace Rule

/-- Every rule, in the fixed order. -/
def all : List Rule :=
  [lineEndings, tabs, indentation, trailingWhitespace, finalNewline, plainAscii]

/-- The position of a rule in the fixed order. -/
def rank : Rule → Nat
  | lineEndings => 0
  | tabs => 1
  | indentation => 2
  | trailingWhitespace => 3
  | finalNewline => 4
  | plainAscii => 5

instance : LT Rule := ⟨fun r s => r.rank < s.rank⟩
instance : LE Rule := ⟨fun r s => r.rank ≤ s.rank⟩
instance (r s : Rule) : Decidable (r < s) := inferInstanceAs (Decidable (r.rank < s.rank))
instance (r s : Rule) : Decidable (r ≤ s) := inferInstanceAs (Decidable (r.rank ≤ s.rank))
instance : Ord Rule := ⟨fun r s => compare r.rank s.rank⟩

def name : Rule → String
  | lineEndings => "line-endings"
  | tabs => "tabs"
  | indentation => "indentation"
  | trailingWhitespace => "trailing-whitespace"
  | finalNewline => "final-newline"
  | plainAscii => "plain-ascii"

def title : Rule → String
  | lineEndings => "lines end with LF only, no carriage return"
  | tabs => "no tab characters"
  | indentation => "indentation is a multiple of the tab size"
  | trailingWhitespace => "no spaces before a line feed"
  | finalNewline => "exactly one line feed at end of file"
  | plainAscii => "only ASCII bytes"

def ofName? (s : String) : Option Rule := all.find? (·.name = s)

/-- The listed rules, each once, in the fixed order. -/
def normalize (rs : List Rule) : List Rule := all.filter (· ∈ rs)

theorem mem_all (r : Rule) : r ∈ all := by cases r <;> decide

theorem mem_normalize {r : Rule} {rs : List Rule} : r ∈ normalize rs ↔ r ∈ rs := by
  simp [normalize, mem_all]

theorem ofName?_name (r : Rule) : ofName? r.name = some r := by cases r <;> decide

theorem rank_injective {r s : Rule} (h : r.rank = s.rank) : r = s := by
  cases r <;> cases s <;> first | rfl | cases h

end Rule

end TextHygiene
