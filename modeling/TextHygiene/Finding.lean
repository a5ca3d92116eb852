import TextHygiene.Fault

/-! Findings: the failure of one rule on one file of a list. Reports are ordered by the file's
position in the list and then by the fixed order of the rules. -/

namespace TextHygiene

structure Finding where
  fileIndex : Nat
  rule : Rule
  failure : Failure
deriving DecidableEq

namespace Finding

def le (f g : Finding) : Bool :=
  f.fileIndex < g.fileIndex || (f.fileIndex = g.fileIndex && f.rule.rank ≤ g.rule.rank)

/-- A stable sort: findings of one file and one rule keep their order. -/
def sort (fs : List Finding) : List Finding := fs.mergeSort le

end Finding

end TextHygiene
