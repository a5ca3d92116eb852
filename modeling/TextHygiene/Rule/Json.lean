import TextHygiene.Json
import TextHygiene.Rule

/-! Rules in JSON. A rule is written as its name, and read either so or as the only key of an
object, with the value null. -/

namespace TextHygiene.Rule

def toJson (r : Rule) : Json := .string r.name.toList

def ofJson? : Json → Option Rule
  | .string s => ofName? (String.ofList s)
  | .object [(key, .null)] => ofName? (String.ofList key)
  | _ => none

theorem ofJson?_toJson (r : Rule) : ofJson? r.toJson = some r := by
  simp [toJson, ofJson?, ofName?_name]

end TextHygiene.Rule
