import Mathlib.Data.List.Basic
import Mathlib.Data.List.TakeWhile
import TextHygiene.Json.Reader

/-! Reading inverts rendering. Every JSON value with natural numbers is read back from its text,
also with more text behind it, and its text holds no control character. -/

namespace TextHygiene

theorem Hexadecimal.value?_digit {n : Nat} (h : n < 16) : value? (digit n) = some n := by
  revert n
  decide

theorem Hexadecimal.digit_printable {n : Nat} (h : n < 16) : 0x20 ≤ (digit n).toNat := by
  revert n
  decide

namespace Json

/-! ## Strings -/

/-- How a character is written: by a short escape, by its number, or as it is. -/
theorem escape_cases (c : Char) :
    (∃ s, escape c = ['\\', s] ∧ shortEscape? s = some c ∧ s ≠ 'u' ∧ 0x20 ≤ s.toNat) ∨
      (c.toNat < 0x20 ∧ escape c = ['\\', 'u', '0', '0', Hexadecimal.digit (c.toNat / 16),
        Hexadecimal.digit (c.toNat % 16)]) ∨
      (escape c = [c] ∧ c ≠ '"' ∧ c ≠ '\\' ∧ 0x20 ≤ c.toNat) := by
  unfold escape
  split
  · exact .inl ⟨'"', rfl, by simp [shortEscape?, *], by decide, by decide⟩
  split
  · exact .inl ⟨'\\', rfl, by simp [shortEscape?, *], by decide, by decide⟩
  split
  · exact .inl ⟨'b', rfl, by simp [shortEscape?, *], by decide, by decide⟩
  split
  · exact .inl ⟨'f', rfl, by simp [shortEscape?, *], by decide, by decide⟩
  split
  · exact .inl ⟨'n', rfl, by simp [shortEscape?, *], by decide, by decide⟩
  split
  · exact .inl ⟨'r', rfl, by simp [shortEscape?, *], by decide, by decide⟩
  split
  · exact .inl ⟨'t', rfl, by simp [shortEscape?, *], by decide, by decide⟩
  split
  · exact .inr (.inl ⟨‹_›, rfl⟩)
  · exact .inr (.inr ⟨rfl, ‹_›, ‹_›, Nat.le_of_not_lt ‹_›⟩)

theorem stringBody?_short {s c : Char} (h : shortEscape? s = some c) (hu : s ≠ 'u')
    (rest : List Char) : stringBody? ('\\' :: s :: rest) = consChar c (stringBody? rest) := by
  rw [stringBody?.eq_def]
  split <;> grind

theorem stringBody?_plain {c : Char} (hq : c ≠ '"') (hb : c ≠ '\\') (h : 0x20 ≤ c.toNat)
    (rest : List Char) : stringBody? (c :: rest) = consChar c (stringBody? rest) := by
  rw [stringBody?.eq_def]
  split <;> grind

theorem stringBody?_control {c : Char} (h : c.toNat < 0x20) (rest : List Char) :
    stringBody? ('\\' :: 'u' :: '0' :: '0' :: Hexadecimal.digit (c.toNat / 16) ::
      Hexadecimal.digit (c.toNat % 16) :: rest) = consChar c (stringBody? rest) := by
  have hunit : unit? '0' '0' (Hexadecimal.digit (c.toNat / 16))
      (Hexadecimal.digit (c.toNat % 16)) = some c.toNat := by
    have hzero : Hexadecimal.value? '0' = some 0 := by decide
    simp only [unit?, hzero, Hexadecimal.value?_digit (show c.toNat / 16 < 16 by omega),
      Hexadecimal.value?_digit (show c.toNat % 16 < 16 by omega), Option.some.injEq]
    omega
  have hhigh : isHighSurrogate c.toNat = false := by simp [isHighSurrogate]; omega
  have hlow : isLowSurrogate c.toNat = false := by simp [isLowSurrogate]; omega
  rw [stringBody?]
  simp [hunit, hhigh, hlow]

theorem stringBody?_escape_append (c : Char) (rest : List Char) :
    stringBody? (escape c ++ rest) = consChar c (stringBody? rest) := by
  rcases escape_cases c with ⟨s, he, hs, hu, -⟩ | ⟨hc, he⟩ | ⟨he, hq, hb, hc⟩
  · rw [he]
    exact stringBody?_short hs hu rest
  · rw [he]
    exact stringBody?_control hc rest
  · rw [he]
    exact stringBody?_plain hq hb hc rest

theorem stringBody?_flatMap_escape (s rest : List Char) :
    stringBody? (s.flatMap escape ++ '"' :: rest) = some (s, rest) := by
  induction s with
  | nil => simp [stringBody?]
  | cons c s ih =>
    rw [List.flatMap_cons, List.append_assoc, stringBody?_escape_append, ih]
    rfl

/-! ## Numerals -/

/-- What follows does not go on with a numeral. -/
def EndsNumeral (rest : List Char) : Prop :=
  ∀ c ∈ rest.head?, c.isDigit = false ∧ c ≠ '.' ∧ c ≠ 'e' ∧ c ≠ 'E'

theorem takeWhile_isDigit_append {ds rest : List Char} (hd : ∀ c ∈ ds, c.isDigit = true)
    (hr : EndsNumeral rest) : (ds ++ rest).takeWhile Char.isDigit = ds := by
  rw [List.takeWhile_append_of_pos hd]
  cases rest with
  | nil => simp
  | cons c rest => simp [(hr c rfl).1]

theorem digits?_append {ds rest : List Char} (hne : ds ≠ []) (hd : ∀ c ∈ ds, c.isDigit = true)
    (hr : EndsNumeral rest) : digits? (ds ++ rest) = some (ds, rest) := by
  have htake := takeWhile_isDigit_append hd hr
  have hsplit := List.takeWhile_append_dropWhile (p := Char.isDigit) (l := ds ++ rest)
  rw [htake, List.append_cancel_left_eq] at hsplit
  simp [digits?, htake, hsplit, hne]

theorem fraction?_of_endsNumeral {rest : List Char} (h : EndsNumeral rest) :
    fraction? rest = some ([], rest) := by
  rw [fraction?.eq_def]
  split <;> simp_all [EndsNumeral]

theorem exponent?_of_endsNumeral {rest : List Char} (h : EndsNumeral rest) :
    exponent? rest = some ([], rest) := by
  cases rest with
  | nil => rfl
  | cons c rest =>
    obtain ⟨-, -, he, hE⟩ := h c rfl
    simp [exponent?, he, hE]

theorem digits_ne_nil (n : Nat) : Decimal.digits n ≠ [] := Nat.toDigits_ne_nil

theorem isDigit_of_mem_digits {n : Nat} {c : Char} (h : c ∈ Decimal.digits n) :
    c.isDigit = true :=
  Nat.isDigit_of_mem_toDigits (by decide) (by decide) h

/-- A number has no zero in front, unless it is zero. -/
theorem head?_digits_ne_zero {n : Nat} (h : n ≠ 0) : (Decimal.digits n).head? ≠ some '0' := by
  rw [Decimal.digits]
  induction n using Nat.strongRecOn with
  | ind n ih =>
    by_cases hn : n < 10
    · rw [Nat.toDigits_of_lt_base hn]
      simpa [Nat.digitChar_eq_zero] using h
    · rw [Nat.toDigits_of_base_le (by decide) (Nat.le_of_not_lt hn),
        List.head?_append_of_ne_nil _ Nat.toDigits_ne_nil]
      exact ih (n / 10) (by omega) (by omega)

theorem integer?_digits (n : Nat) {rest : List Char} (hr : EndsNumeral rest) :
    integer? (Decimal.digits n ++ rest) = some (Decimal.digits n, rest) := by
  by_cases h : n = 0
  · rw [h, Decimal.digits, Nat.toDigits_zero]
    rfl
  · rw [integer?.eq_def]
    split
    · rename_i heq
      have hhead := congrArg List.head? heq
      rw [List.head?_append_of_ne_nil _ (digits_ne_nil n)] at hhead
      exact absurd hhead (head?_digits_ne_zero h)
    · exact digits?_append (digits_ne_nil n) (fun c => isDigit_of_mem_digits) hr

theorem numeral?_digits (n : Nat) {rest : List Char} (hr : EndsNumeral rest) :
    numeral? (Decimal.digits n ++ rest) = some (Decimal.digits n, rest) := by
  have hunsigned : unsigned? (Decimal.digits n ++ rest) = some (Decimal.digits n, rest) := by
    simp [unsigned?, integer?_digits n hr, fraction?_of_endsNumeral hr,
      exponent?_of_endsNumeral hr]
  rw [numeral?.eq_def]
  split
  · rename_i heq
    have hhead := congrArg List.head? heq
    rw [List.head?_append_of_ne_nil _ (digits_ne_nil n)] at hhead
    have hdigit := isDigit_of_mem_digits (List.mem_of_head? hhead)
    exact absurd hdigit (by decide)
  · exact hunsigned

theorem exists_digits_eq_cons (n : Nat) :
    ∃ c cs, Decimal.digits n = c :: cs ∧ c.isDigit = true := by
  cases h : Decimal.digits n with
  | nil => exact absurd h (digits_ne_nil n)
  | cons c cs => exact ⟨c, cs, rfl, isDigit_of_mem_digits (h ▸ List.mem_cons_self)⟩

theorem ne_of_isDigit {c d : Char} (hc : c.isDigit = true) (hd : d.isDigit = false) : c ≠ d := by
  rintro rfl
  rw [hc] at hd
  cases hd

theorem not_isSpace_of_isDigit {c : Char} (hc : c.isDigit = true) : isSpace c = false := by
  have hblank : c ≠ ' ' := ne_of_isDigit hc (by decide)
  have htab : c ≠ '\t' := ne_of_isDigit hc (by decide)
  have hfeed : c ≠ '\n' := ne_of_isDigit hc (by decide)
  have hreturn : c ≠ '\r' := ne_of_isDigit hc (by decide)
  simp [isSpace, hblank, htab, hfeed, hreturn]

/-! ## Values -/

mutual

/-- Every number of the value is a natural number. -/
def IsWhole : Json → Prop
  | number numeral => ∃ n, numeral = Decimal.digits n
  | array items => AreWhole items
  | object fields => FieldsAreWhole fields
  | _ => True
termination_by structural j => j

def AreWhole : List Json → Prop
  | [] => True
  | j :: rest => j.IsWhole ∧ AreWhole rest
termination_by structural js => js

def FieldsAreWhole : List (List Char × Json) → Prop
  | [] => True
  | (_, j) :: rest => j.IsWhole ∧ FieldsAreWhole rest
termination_by structural fs => fs

end

theorem skipSpace_cons {c : Char} (h : isSpace c = false) (cs : List Char) :
    skipSpace (c :: cs) = c :: cs := by
  simp [skipSpace, h]

/-- The text of a value starts with no space and no closing bracket. -/
theorem exists_render_eq_cons {j : Json} (h : j.IsWhole) :
    ∃ c cs, j.render = c :: cs ∧ isSpace c = false ∧ c ≠ ']' := by
  cases j with
  | null => exact ⟨_, _, rfl, by decide, by decide⟩
  | bool b => cases b <;> exact ⟨_, _, rfl, by decide, by decide⟩
  | number numeral =>
    obtain ⟨n, rfl⟩ := h
    obtain ⟨c, cs, heq, hc⟩ := exists_digits_eq_cons n
    exact ⟨c, cs, heq, not_isSpace_of_isDigit hc, ne_of_isDigit hc (by decide)⟩
  | string s => exact ⟨_, _, rfl, by decide, by decide⟩
  | array items => exact ⟨_, _, rfl, by decide, by decide⟩
  | object fields => exact ⟨_, _, rfl, by decide, by decide⟩

theorem value?_digits (d : Nat) {rest : List Char} (hr : EndsNumeral rest) (n : Nat) :
    value? (n + 1) (Decimal.digits d ++ rest) = some (number (Decimal.digits d), rest) := by
  have hread := numeral?_digits d hr
  obtain ⟨c, cs, heq, hc⟩ := exists_digits_eq_cons d
  rw [heq, List.cons_append] at hread ⊢
  rw [value?, skipSpace_cons (not_isSpace_of_isDigit hc)]
  split
  any_goals
    rename_i heq
    exact absurd (List.cons.inj heq).1 (ne_of_isDigit hc (by decide))
  rw [hread]
  rfl

theorem endsNumeral_cons {c : Char} (h : c.isDigit = false ∧ c ≠ '.' ∧ c ≠ 'e' ∧ c ≠ 'E')
    (cs : List Char) : EndsNumeral (c :: cs) := by
  rintro _ ⟨⟩
  exact h

theorem items?_last {n : Nat} {cs rest : List Char} {j : Json}
    (hj : value? n cs = some (j, ']' :: rest)) : items? (n + 1) cs = some ([j], rest) := by
  have hspace : skipSpace (']' :: rest) = ']' :: rest := skipSpace_cons (by decide) rest
  simp [items?, hj, hspace]

theorem items?_more {n : Nat} {cs cs' rest : List Char} {j : Json} {js : List Json}
    (hj : value? n cs = some (j, ',' :: cs')) (hjs : items? n cs' = some (js, rest)) :
    items? (n + 1) cs = some (j :: js, rest) := by
  have hspace : skipSpace (',' :: cs') = ',' :: cs' := skipSpace_cons (by decide) cs'
  simp [items?, hj, hspace, hjs]

theorem skipSpace_quote_append (k rest : List Char) :
    skipSpace (quote k ++ rest) = '"' :: (k.flatMap escape ++ '"' :: rest) := by
  simp [quote, skipSpace_cons, isSpace]

theorem fields?_last {n : Nat} {cs rest k : List Char} {j : Json}
    (hj : value? n cs = some (j, '\x7d' :: rest)) :
    fields? (n + 1) (quote k ++ ':' :: cs) = some ([(k, j)], rest) := by
  have hcolon : skipSpace (':' :: cs) = ':' :: cs := skipSpace_cons (by decide) cs
  have hspace : skipSpace ('\x7d' :: rest) = '\x7d' :: rest := skipSpace_cons (by decide) rest
  simp [fields?, skipSpace_quote_append, stringBody?_flatMap_escape, hcolon, hj, hspace]

theorem fields?_more {n : Nat} {cs cs' rest k : List Char} {j : Json}
    {fs : List (List Char × Json)} (hj : value? n cs = some (j, ',' :: cs'))
    (hfs : fields? n cs' = some (fs, rest)) :
    fields? (n + 1) (quote k ++ ':' :: cs) = some ((k, j) :: fs, rest) := by
  have hcolon : skipSpace (':' :: cs) = ':' :: cs := skipSpace_cons (by decide) cs
  have hspace : skipSpace (',' :: cs') = ',' :: cs' := skipSpace_cons (by decide) cs'
  simp [fields?, skipSpace_quote_append, stringBody?_flatMap_escape, hcolon, hj, hspace, hfs]

theorem value?_array {n : Nat} {c : Char} {cs rest : List Char} {js : List Json}
    (hc : isSpace c = false) (hne : c ≠ ']') (hjs : items? n (c :: cs) = some (js, rest)) :
    value? (n + 1) ('[' :: c :: cs) = some (array js, rest) := by
  have hopen : skipSpace ('[' :: c :: cs) = '[' :: c :: cs := skipSpace_cons (by decide) _
  rw [value?, hopen]
  simp only [skipSpace_cons hc, hjs]
  split
  · rename_i heq
    exact absurd (List.cons.inj heq).1 hne
  · rfl

theorem value?_object {n : Nat} {cs rest k : List Char} {fs : List (List Char × Json)}
    (hfs : fields? n (quote k ++ cs) = some (fs, rest)) :
    value? (n + 1) ('\x7b' :: (quote k ++ cs)) = some (object fs, rest) := by
  have hopen : skipSpace ('\x7b' :: (quote k ++ cs)) = '\x7b' :: (quote k ++ cs) :=
    skipSpace_cons (by decide) _
  rw [value?, hopen]
  simp only [hfs]
  split
  · rename_i heq
    rw [skipSpace_quote_append] at heq
    exact absurd (List.cons.inj heq).1 (by decide)
  · rfl

theorem renderItems_cons_cons (j j' : Json) (js : List Json) :
    renderItems (j :: j' :: js) = j.render ++ ',' :: renderItems (j' :: js) := rfl

theorem renderFields_cons_cons (k : List Char) (j : Json) (f : List Char × Json)
    (fs : List (List Char × Json)) : renderFields ((k, j) :: f :: fs) =
      quote k ++ ':' :: (j.render ++ ',' :: renderFields (f :: fs)) := rfl

/-- The text of fields starts with the quote of a key. -/
theorem exists_renderFields_eq (k : List Char) (j : Json) (fs : List (List Char × Json)) :
    ∃ cs, renderFields ((k, j) :: fs) = quote k ++ cs := by
  cases fs with
  | nil => exact ⟨_, rfl⟩
  | cons f fs => exact ⟨_, rfl⟩

theorem renderItems_cons (j : Json) (js : List Json) :
    renderItems (j :: js) = j.render ++ js.flatMap fun j' => ',' :: j'.render := by
  induction js generalizing j with
  | nil => exact (List.append_nil _).symm
  | cons j' js ih => rw [renderItems_cons_cons, ih, List.flatMap_cons, List.cons_append]

-- The fuel pays twice for each character, once for the value that begins there and once for the
-- item or the field that the value is.
mutual

theorem value?_render : ∀ (j : Json), j.IsWhole → ∀ (n : Nat), 2 * j.render.length ≤ n →
    ∀ rest, EndsNumeral rest → value? n (j.render ++ rest) = some (j, rest)
  | null, _, n, hn, rest, _ => by
    obtain ⟨m, rfl⟩ : ∃ m, n = m + 1 := ⟨n - 1, by simp [render] at hn; omega⟩
    simp [render, value?, skipSpace_cons, isSpace]
  | bool b, _, n, hn, rest, _ => by
    obtain ⟨m, rfl⟩ : ∃ m, n = m + 1 := ⟨n - 1, by cases b <;> simp [render] at hn <;> omega⟩
    cases b <;> simp [render, value?, skipSpace_cons, isSpace]
  | number numeral, hj, n, hn, rest, hr => by
    obtain ⟨d, rfl⟩ := hj
    have hpos := List.length_pos_of_ne_nil (digits_ne_nil d)
    obtain ⟨m, rfl⟩ : ∃ m, n = m + 1 := ⟨n - 1, by simp [render] at hn; omega⟩
    exact value?_digits d hr m
  | string s, _, n, hn, rest, _ => by
    obtain ⟨m, rfl⟩ : ∃ m, n = m + 1 := ⟨n - 1, by simp [render, quote] at hn; omega⟩
    simp [render, quote, value?, skipSpace_cons, isSpace, stringBody?_flatMap_escape]
  | array [], _, n, hn, rest, _ => by
    obtain ⟨m, rfl⟩ : ∃ m, n = m + 1 := ⟨n - 1, by simp [render, renderItems] at hn; omega⟩
    simp [render, renderItems, value?, skipSpace_cons, isSpace]
  | array (j :: js), hj, n, hn, rest, _ => by
    simp only [render, List.length_cons, List.length_append, List.length_nil] at hn
    obtain ⟨m, rfl⟩ : ∃ m, n = m + 1 := ⟨n - 1, by omega⟩
    have hitems := items?_renderItems (j :: js) (List.cons_ne_nil _ _) hj m (by omega) rest
    obtain ⟨c, cs, hfirst, hspace, hne⟩ := exists_render_eq_cons hj.1
    rw [renderItems_cons, hfirst] at hitems
    simpa [render, renderItems_cons, hfirst] using value?_array hspace hne hitems
  | object [], _, n, hn, rest, _ => by
    obtain ⟨m, rfl⟩ : ∃ m, n = m + 1 := ⟨n - 1, by simp [render, renderFields] at hn; omega⟩
    simp [render, renderFields, value?, skipSpace_cons, isSpace]
  | object ((k, j) :: fs), hj, n, hn, rest, _ => by
    simp only [render, List.length_cons, List.length_append, List.length_nil] at hn
    obtain ⟨m, rfl⟩ : ∃ m, n = m + 1 := ⟨n - 1, by omega⟩
    have hfields :=
      fields?_renderFields ((k, j) :: fs) (List.cons_ne_nil _ _) hj m (by omega) rest
    obtain ⟨tail, htail⟩ := exists_renderFields_eq k j fs
    rw [htail, List.append_assoc] at hfields
    simpa [render, htail] using value?_object hfields
termination_by structural j => j

theorem items?_renderItems : ∀ (js : List Json), js ≠ [] → AreWhole js → ∀ (n : Nat),
    2 * (renderItems js).length + 1 ≤ n → ∀ rest,
    items? n (renderItems js ++ ']' :: rest) = some (js, rest)
  | [], hne, _, _, _, _ => absurd rfl hne
  | [j], _, hj, n, hn, rest => by
    obtain ⟨m, rfl⟩ : ∃ m, n = m + 1 := ⟨n - 1, by omega⟩
    rw [renderItems] at hn ⊢
    exact items?_last (value?_render j hj.1 m (by omega) _ (endsNumeral_cons (by decide) rest))
  | j :: j' :: js, _, hj, n, hn, rest => by
    obtain ⟨m, rfl⟩ : ∃ m, n = m + 1 := ⟨n - 1, by omega⟩
    rw [renderItems_cons_cons, List.length_append, List.length_cons] at hn
    rw [renderItems_cons_cons, List.append_assoc, List.cons_append]
    have hrest := items?_renderItems (j' :: js) (List.cons_ne_nil _ _) hj.2 m (by omega) rest
    exact items?_more (value?_render j hj.1 m (by omega) _ (endsNumeral_cons (by decide) _)) hrest
termination_by structural js => js

theorem fields?_renderFields : ∀ (fs : List (List Char × Json)), fs ≠ [] → FieldsAreWhole fs →
    ∀ (n : Nat), 2 * (renderFields fs).length + 1 ≤ n → ∀ rest,
    fields? n (renderFields fs ++ '\x7d' :: rest) = some (fs, rest)
  | [], hne, _, _, _, _ => absurd rfl hne
  | [(k, j)], _, hj, n, hn, rest => by
    obtain ⟨m, rfl⟩ : ∃ m, n = m + 1 := ⟨n - 1, by omega⟩
    rw [renderFields, List.length_append, List.length_cons] at hn
    rw [renderFields, List.append_assoc, List.cons_append]
    exact fields?_last (value?_render j hj.1 m (by omega) _ (endsNumeral_cons (by decide) rest))
  | (k, j) :: f :: fs, _, hj, n, hn, rest => by
    obtain ⟨m, rfl⟩ : ∃ m, n = m + 1 := ⟨n - 1, by omega⟩
    rw [renderFields_cons_cons, List.length_append, List.length_cons, List.length_append,
      List.length_cons] at hn
    rw [renderFields_cons_cons, List.append_assoc, List.cons_append, List.append_assoc,
      List.cons_append]
    have hrest := fields?_renderFields (f :: fs) (List.cons_ne_nil _ _) hj.2 m (by omega) rest
    exact fields?_more (value?_render j hj.1 m (by omega) _ (endsNumeral_cons (by decide) _)) hrest
termination_by structural fs => fs

end

theorem endsNumeral_of_isSpace {space : List Char} (hs : ∀ c ∈ space, isSpace c = true) :
    EndsNumeral space := by
  intro c hc
  have hspace := hs c (List.mem_of_head? hc)
  simp only [isSpace, Bool.or_eq_true, decide_eq_true_eq] at hspace
  rcases hspace with ((rfl | rfl) | rfl) | rfl <;> decide

/-- Every value with natural numbers is read back from its text, also with space behind it. -/
theorem read?_render_append {j : Json} (hj : j.IsWhole) {space : List Char}
    (hs : ∀ c ∈ space, isSpace c = true) : read? (j.render ++ space) = some j := by
  have hskip : skipSpace space = [] := List.dropWhile_eq_nil_iff.mpr hs
  rw [read?, value?_render j hj _ (by simp; omega) space (endsNumeral_of_isSpace hs)]
  simp [hskip]

/-! ## No control characters -/

/-- A text without control characters. -/
def IsPrintable (cs : List Char) : Prop := ∀ c ∈ cs, 0x20 ≤ c.toNat

theorem isPrintable_append {a b : List Char} :
    IsPrintable (a ++ b) ↔ IsPrintable a ∧ IsPrintable b :=
  List.forall_mem_append

theorem isPrintable_cons {c : Char} {cs : List Char} :
    IsPrintable (c :: cs) ↔ 0x20 ≤ c.toNat ∧ IsPrintable cs := List.forall_mem_cons

theorem isPrintable_nil : IsPrintable [] := fun _ h => absurd h List.not_mem_nil

theorem isPrintable_escape (c : Char) : IsPrintable (escape c) := by
  rcases escape_cases c with ⟨s, he, -, -, hs⟩ | ⟨hc, he⟩ | ⟨he, -, -, hc⟩
  · rw [he]
    exact isPrintable_cons.mpr ⟨by decide, isPrintable_cons.mpr ⟨hs, isPrintable_nil⟩⟩
  · have h₁ := Hexadecimal.digit_printable (show c.toNat / 16 < 16 by omega)
    have h₂ := Hexadecimal.digit_printable (show c.toNat % 16 < 16 by omega)
    rw [he]
    simp only [isPrintable_cons, isPrintable_nil, h₁, h₂]
    decide
  · rw [he]
    exact isPrintable_cons.mpr ⟨hc, isPrintable_nil⟩

theorem isPrintable_quote (s : List Char) : IsPrintable (quote s) := by
  have hbody : IsPrintable (s.flatMap escape) := by
    intro c hc
    obtain ⟨d, -, hd⟩ := List.mem_flatMap.mp hc
    exact isPrintable_escape d c hd
  simp only [quote, isPrintable_cons, isPrintable_append, hbody, isPrintable_nil]
  decide

theorem isPrintable_digits (n : Nat) : IsPrintable (Decimal.digits n) := by
  intro c hc
  have hdigit := isDigit_of_mem_digits hc
  simp only [Char.isDigit, Bool.and_eq_true, decide_eq_true_eq] at hdigit
  have hzero : '0'.toNat ≤ c.toNat := hdigit.1
  exact Nat.le_trans (by decide) hzero

mutual

theorem isPrintable_render : ∀ j : Json, j.IsWhole → IsPrintable j.render
  | null, _ => by simp only [render, isPrintable_cons, isPrintable_nil]; decide
  | bool true, _ => by simp only [render, isPrintable_cons, isPrintable_nil]; decide
  | bool false, _ => by simp only [render, isPrintable_cons, isPrintable_nil]; decide
  | number _, ⟨n, h⟩ => h ▸ isPrintable_digits n
  | string s, _ => isPrintable_quote s
  | array items, h => by
    simp only [render, isPrintable_cons, isPrintable_append, isPrintable_renderItems items h,
      isPrintable_nil]
    decide
  | object fields, h => by
    simp only [render, isPrintable_cons, isPrintable_append, isPrintable_renderFields fields h,
      isPrintable_nil]
    decide
termination_by structural j => j

theorem isPrintable_renderItems : ∀ js : List Json, AreWhole js → IsPrintable (renderItems js)
  | [], _ => isPrintable_nil
  | [j], h => isPrintable_render j h.1
  | j :: j' :: js, h => by
    rw [renderItems_cons_cons, isPrintable_append, isPrintable_cons]
    exact ⟨isPrintable_render j h.1, by decide, isPrintable_renderItems (j' :: js) h.2⟩
termination_by structural js => js

theorem isPrintable_renderFields : ∀ fs : List (List Char × Json), FieldsAreWhole fs →
    IsPrintable (renderFields fs)
  | [], _ => isPrintable_nil
  | [(k, j)], h => by
    rw [renderFields, isPrintable_append, isPrintable_cons]
    exact ⟨isPrintable_quote k, by decide, isPrintable_render j h.1⟩
  | (k, j) :: f :: fs, h => by
    rw [renderFields_cons_cons, isPrintable_append, isPrintable_cons, isPrintable_append,
      isPrintable_cons]
    exact ⟨isPrintable_quote k, by decide, isPrintable_render j h.1, by decide,
      isPrintable_renderFields (f :: fs) h.2⟩
termination_by structural fs => fs

end

end Json

end TextHygiene
