import Mathlib
import TextHygiene.Proofs.JsonRoundTrip
import TextHygiene.Proofs.Utf8RoundTrip
import TextHygiene.Report

/-! Reading a JSON report. The report is one line, and it is read as an array with one object for
each finding, from which the items of the findings are got back; so a report tells its items. -/

namespace TextHygiene

namespace Item

/-! ## Items from objects -/

def textOf? : Json → Option String
  | .string s => some (String.ofList s)
  | _ => none

def numberOf? : Json → Option Nat
  | .number numeral =>
    if numeral.all Char.isDigit then some (Nat.ofDigitChars 10 numeral 0) else none
  | _ => none

/-- A field that must be there. -/
def required? {α : Type} (read? : Json → Option α) (fields : List (List Char × Json))
    (key : String) : Option α :=
  (fields.lookup key.toList).bind read?

/-- A field that may be left out, but is not to hold anything else. -/
def optional? {α : Type} (read? : Json → Option α) (fields : List (List Char × Json))
    (key : String) : Option (Option α) :=
  match fields.lookup key.toList with
  | none => some none
  | some j => (read? j).map some

/-- The item that an object shows. -/
def ofJson? : Json → Option Item
  | .object fields => do
    return {
      path := ← required? textOf? fields "path"
      rule := ← required? textOf? fields "rule"
      line := ← optional? numberOf? fields "line"
      count := ← optional? numberOf? fields "count"
      message := ← required? textOf? fields "message" }
  | _ => none

theorem textOf?_string (s : String) : textOf? (.string s.toList) = some s := by simp [textOf?]

theorem numberOf?_ofNat (n : Nat) : numberOf? (Json.ofNat n) = some n := by
  have hdigits : (Decimal.digits n).all Char.isDigit = true :=
    List.all_eq_true.mpr fun c => Json.isDigit_of_mem_digits
  rw [Json.ofNat, numberOf?, if_pos hdigits, Decimal.digits, Nat.ofDigitChars_ten_toDigits]

theorem ofJson?_toJson (i : Item) : ofJson? i.toJson = some i := by
  obtain ⟨path, rule, line, count, message⟩ := i
  cases line <;> cases count <;>
    simp [ofJson?, toJson, field, required?, optional?, List.lookup, textOf?_string,
      numberOf?_ofNat]

theorem isWhole_toJson (i : Item) : i.toJson.IsWhole := by
  obtain ⟨path, rule, line, count, message⟩ := i
  cases line <;> cases count <;>
    simp [toJson, field, Json.IsWhole, Json.FieldsAreWhole, Json.ofNat]

end Item

namespace Report

/-! ## The text of a report -/

/-- A report as one JSON value. -/
def toJson (fs : List Finding) : Json := .array ((fs.map Item.ofFinding).map Item.toJson)

theorem flatten_itemPieces (fs : List Finding) :
    (itemPieces fs).flatten = Json.renderItems ((fs.map Item.ofFinding).map Item.toJson) := by
  cases fs with
  | nil => rfl
  | cons f rest =>
    rw [itemPieces, List.flatten_cons, List.map_cons, List.map_cons, Json.renderItems_cons,
      List.flatMap_map, List.flatMap_map]
    congr 1
    induction rest with
    | nil => rfl
    | cons g rest ih =>
      rw [List.flatMap_cons, List.flatten_append, ih, List.flatMap_cons]
      simp [itemText]

theorem text_json (fs : List Finding) : text .json fs = (toJson fs).render ++ ['\n'] := by
  simp [text, pieces, flatten_itemPieces, toJson, Json.render]

theorem areWhole_map_toJson (items : List Item) : Json.AreWhole (items.map Item.toJson) := by
  induction items with
  | nil => trivial
  | cons i rest ih => exact ⟨Item.isWhole_toJson i, ih⟩

theorem isWhole_toJson (fs : List Finding) : (toJson fs).IsWhole := areWhole_map_toJson _

theorem decode?_bytes (format : Format) (fs : List Finding) :
    Utf8.decode? (bytes format fs) = some (text format fs) :=
  Utf8.decode?_eq_some_iff.mpr rfl

theorem read?_text_json (fs : List Finding) : Json.read? (text .json fs) = some (toJson fs) := by
  rw [text_json]
  exact Json.read?_render_append (isWhole_toJson fs) (List.forall_mem_singleton.mpr rfl)

theorem map_ofJson?_toJson (items : List Item) :
    (items.map Item.toJson).map Item.ofJson? = items.map some := by
  rw [List.map_map]
  exact List.map_congr_left fun i _ => Item.ofJson?_toJson i

/-! ## The line of a report -/

theorem count_lineFeed_bytes_json (fs : List Finding) :
    (bytes .json fs).count Byte.lineFeed = 1 := by
  have hnone : '\n' ∉ (toJson fs).render := fun hmem =>
    absurd (Json.isPrintable_render _ (isWhole_toJson fs) '\n' hmem) (by decide)
  rw [bytes, Utf8.count_encode (by decide), text_json, List.count_append]
  have hchar : Char.ofNat Byte.lineFeed.toNat = '\n' := by decide
  rw [hchar, List.count_eq_zero.mpr hnone]
  decide

theorem getLast?_bytes_json (fs : List Finding) :
    (bytes .json fs).getLast? = some Byte.lineFeed := by
  have hlast : Utf8.encode ['\n'] = [Byte.lineFeed] := by decide
  rw [bytes, text_json, Utf8.encode_append, hlast, List.getLast?_concat]

/-- The items can be got back from the bytes of a report. -/
theorem items_eq_of_bytes_eq {fs gs : List Finding} (h : bytes .json fs = bytes .json gs) :
    fs.map Item.ofFinding = gs.map Item.ofFinding := by
  have htext : text .json fs = text .json gs := by
    have hdecode := decode?_bytes .json fs
    rw [h, decode?_bytes] at hdecode
    exact (Option.some.inj hdecode).symm
  have hvalue : toJson fs = toJson gs := by
    have hread := read?_text_json fs
    rw [htext, read?_text_json] at hread
    exact (Option.some.inj hread).symm
  have hitems := congrArg (List.map Item.ofJson?) (Json.array.inj hvalue)
  rw [map_ofJson?_toJson, map_ofJson?_toJson] at hitems
  exact (List.map_inj_right fun _ _ => Option.some.inj).mp hitems

theorem bytes_eq_of_items_eq {fs gs : List Finding}
    (h : fs.map Item.ofFinding = gs.map Item.ofFinding) : bytes .json fs = bytes .json gs := by
  rw [bytes, bytes, text_json, text_json, toJson, toJson, h]

end Report

namespace Item

/-- Read errors and the line feeds at the end of a file have no line. -/
theorem line_ofFinding_eq_none_iff (f : Finding) :
    (ofFinding f).line = none ↔ (∃ e, f.failure.cause = .unreadable e) ∨
      ∃ n, f.failure.cause = .fault (.finalNewlineCount n) := by
  obtain ⟨index, rule, path, cause⟩ := f
  cases cause with
  | unreadable e => simp [ofFinding, Cause.fault?]
  | fault fault => cases fault <;> simp [ofFinding, Cause.fault?, Fault.line?]

theorem count_ofFinding_eq_some_iff (f : Finding) (n : Nat) :
    (ofFinding f).count = some n ↔ f.failure.cause = .fault (.finalNewlineCount n) := by
  obtain ⟨index, rule, path, cause⟩ := f
  cases cause with
  | unreadable e => simp [ofFinding, Cause.fault?]
  | fault fault => cases fault <;> simp [ofFinding, Cause.fault?, Fault.count?]

end Item

/-- A JSON report is one line, which is read as an array with one object for each finding, in order.
Each object shows the item of its finding, with a line and a count where the finding has them, so
that reports are equal only when their items are. -/
theorem Report.json_is_read_back (fs : List Finding) :
    ((bytes .json fs).count Byte.lineFeed = 1 ∧
      (bytes .json fs).getLast? = some Byte.lineFeed) ∧
    (∃ text objects, Utf8.decode? (bytes .json fs) = some text ∧
      Json.read? text = some (.array objects) ∧
      objects.map Item.ofJson? = (fs.map Item.ofFinding).map some) ∧
    (∀ f, (Item.ofFinding f).line = none ↔ (∃ e, f.failure.cause = .unreadable e) ∨
      ∃ n, f.failure.cause = .fault (.finalNewlineCount n)) ∧
    (∀ f n, (Item.ofFinding f).count = some n ↔
      f.failure.cause = .fault (.finalNewlineCount n)) ∧
    ∀ gs, bytes .json fs = bytes .json gs ↔
      fs.map Item.ofFinding = gs.map Item.ofFinding := by
  refine ⟨⟨count_lineFeed_bytes_json fs, getLast?_bytes_json fs⟩, ?_,
    Item.line_ofFinding_eq_none_iff, Item.count_ofFinding_eq_some_iff, fun gs => ?_⟩
  · exact ⟨_, _, decode?_bytes .json fs, read?_text_json fs, map_ofJson?_toJson _⟩
  · exact ⟨items_eq_of_bytes_eq, bytes_eq_of_items_eq⟩

/-- A report on one finding, and the items of that one, of one with a count and of a read error,
which has neither a line nor a count. -/
example :
    let tab : Finding := ⟨0, .tabs, ⟨[0x61], .fault (.tabCharacter 3)⟩⟩
    let feeds : Finding := ⟨1, .finalNewline, ⟨[0x62], .fault (.finalNewlineCount 2)⟩⟩
    let missing : Finding := ⟨2, .tabs, ⟨[0x63], .unreadable .notFound⟩⟩
    Report.text .json [tab] =
        ("[\x7b\"path\":\"a\",\"rule\":\"tabs\",\"line\":3,\"message\":" ++
          "\"File 'a' has a tab character in line 3\"\x7d]\n").toList ∧
      [tab, feeds, missing].map Item.ofFinding = [
        ⟨"a", "tabs", some 3, none, "File 'a' has a tab character in line 3"⟩,
        ⟨"b", "final-newline", none, some 2,
          "File 'b' must end with exactly one new line character (found 2)"⟩,
        ⟨"c", "tabs", none, none,
          "File 'c' could not be read: No such file or directory (os error 2)"⟩] := by
  decide +kernel

end TextHygiene
