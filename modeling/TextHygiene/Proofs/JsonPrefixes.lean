import TextHygiene.Proofs.JsonRoundTrip

/-! Texts that are cut off. What the reader has taken from a text it takes from every longer text,
so that a text of which more than space is missing is no document: its value would end where the
value of the whole text ends. -/

namespace TextHygiene.Json

/-- A text that the reader takes as one value with space around it, given fuel enough. -/
def IsDocument (cs : List Char) : Prop :=
  ∃ fuel j rest, value? fuel cs = some (j, rest) ∧ skipSpace rest = []

theorem isDocument_of_read? {cs : List Char} {j : Json} (h : read? cs = some j) :
    IsDocument cs := by
  unfold read? at h
  split at h
  · rename_i j' rest hvalue
    split at h
    · exact ⟨_, j', rest, hvalue, List.isEmpty_iff.mp ‹_›⟩
    · cases h
  · cases h

/-! ## Strings and numerals -/

theorem skipSpace_append {cs : List Char} (h : skipSpace cs ≠ []) (more : List Char) :
    skipSpace (cs ++ more) = skipSpace cs ++ more := by
  rw [skipSpace, List.dropWhile_append, if_neg]
  · rfl
  · simpa [skipSpace] using h

theorem skipSpace_append_of_eq_cons {cs r : List Char} {c : Char} (h : skipSpace cs = c :: r)
    (more : List Char) : skipSpace (cs ++ more) = c :: (r ++ more) := by
  rw [skipSpace_append (by simp [h]), h, List.cons_append]

theorem map_eq_some_pair_iff {α β γ : Type} {f : α → β} {x : Option (α × γ)} {b : β} {r : γ} :
    (x.map fun (a, r) => (f a, r)) = some (b, r) ↔ ∃ a, x = some (a, r) ∧ f a = b := by
  cases x with
  | none => simp
  | some p => simp [Prod.ext_iff, and_comm]

theorem consChar_eq_some_iff {c : Char} {x : Option (List Char × List Char)} {s rest : List Char} :
    consChar c x = some (s, rest) ↔ ∃ s', x = some (s', rest) ∧ s = c :: s' := by
  cases x with
  | none => simp [consChar]
  | some p => simp [consChar, Prod.ext_iff, eq_comm, and_comm]

/-- A string ends at its closing quote, whatever follows. -/
theorem stringBody?_append {cs s rest : List Char} (h : stringBody? cs = some (s, rest))
    (more : List Char) : stringBody? (cs ++ more) = some (s, rest ++ more) := by
  fun_induction stringBody? cs generalizing s with
  | case2 r =>
    obtain ⟨rfl, rfl⟩ := Prod.mk.inj (Option.some.inj h)
    simp [stringBody?]
  | case5 a b c d n hn hhigh e f g h' r m hm hlow ih =>
    obtain ⟨s, hs, rfl⟩ := consChar_eq_some_iff.mp h
    simp [stringBody?, hn, hhigh, hm, hlow, ih hs, consChar]
  | case9 a b c d r n hn hhigh hlow ih =>
    obtain ⟨s, hs, rfl⟩ := consChar_eq_some_iff.mp h
    simp [stringBody?, hn, hhigh, hlow, ih hs, consChar]
  | case11 c r hshape e hshort ih =>
    obtain ⟨s, hs, rfl⟩ := consChar_eq_some_iff.mp h
    have hu : c ≠ 'u' := by
      rintro rfl
      cases hshort
    rw [List.cons_append, List.cons_append, stringBody?_short hshort hu, ih hs]
    rfl
  | case13 c r hquote hunit hescape hplain ih =>
    obtain ⟨s, hs, rfl⟩ := consChar_eq_some_iff.mp h
    obtain ⟨hbackslash, hcontrol⟩ := not_or.mp hplain
    rw [List.cons_append, stringBody?_plain hquote hbackslash (Nat.le_of_not_lt hcontrol), ih hs]
    rfl
  | _ => cases h

theorem digits?_eq_some_iff {cs ds rest : List Char} :
    digits? cs = some (ds, rest) ↔ cs = ds ++ rest ∧ ds ≠ [] ∧ (∀ c ∈ ds, c.isDigit = true) ∧
      ∀ c ∈ rest.head?, c.isDigit = false := by
  simp only [digits?, Option.ite_none_left_eq_some, Option.some.injEq, Prod.mk.injEq,
    List.isEmpty_iff]
  constructor
  · rintro ⟨hne, rfl, rfl⟩
    refine ⟨List.takeWhile_append_dropWhile.symm, hne, fun c => List.mem_takeWhile_imp, ?_⟩
    intro c hc
    have hnot := List.head?_dropWhile_not Char.isDigit cs
    rwa [hc] at hnot
  · rintro ⟨rfl, hne, hdigits, hrest⟩
    have htake : (ds ++ rest).takeWhile Char.isDigit = ds := by
      rw [List.takeWhile_append_of_pos hdigits]
      cases rest with
      | nil => simp
      | cons c rest => simp [hrest c rfl]
    have hsplit := List.takeWhile_append_dropWhile (p := Char.isDigit) (l := ds ++ rest)
    rw [htake, List.append_cancel_left_eq] at hsplit
    exact ⟨by rwa [htake], htake, hsplit⟩

/-- What is read from a text, but not up to its end, is read from every longer text. -/
def Extends (read? : List Char → Option (List Char × List Char)) : Prop :=
  ∀ ⦃cs out rest⦄, read? cs = some (out, rest) → rest ≠ [] →
    ∀ more, read? (cs ++ more) = some (out, rest ++ more)

namespace Extends

variable {f g : List Char → Option (List Char × List Char)}

theorem congr (h : Extends g) (heq : ∀ cs, f cs = g cs) : Extends f := by
  rwa [funext heq]

theorem map (h : Extends f) (front : List Char → List Char) :
    Extends fun cs => (f cs).map fun (ds, r) => (front ds, r) := by
  intro cs out rest hout hrest more
  obtain ⟨ds, hds, rfl⟩ := map_eq_some_pair_iff.mp hout
  exact map_eq_some_pair_iff.mpr ⟨ds, h hds hrest more, rfl⟩

theorem cons (h : Extends f) (c : Char) : Extends fun cs => f (c :: cs) :=
  fun _ _ _ hout hrest more => h hout hrest more

/-- The first character may decide how the text is read. -/
theorem of_cons (hnil : ∀ out rest, f [] = some (out, rest) → rest = [])
    (hcons : ∀ c, Extends fun cs => f (c :: cs)) : Extends f := by
  intro cs out rest hout hrest more
  cases cs with
  | nil => exact absurd (hnil out rest hout) hrest
  | cons c cs => exact hcons c hout hrest more

theorem const (out front : List Char) : Extends fun cs => some (out, front ++ cs) := by
  rintro cs _ _ ⟨⟩ - more
  rw [List.append_assoc]

end Extends

theorem extends_digits : Extends digits? := by
  intro cs ds rest h hrest more
  rw [digits?_eq_some_iff] at h ⊢
  obtain ⟨rfl, hne, hdigits, hhead⟩ := h
  refine ⟨List.append_assoc _ _ _, hne, hdigits, ?_⟩
  rwa [List.head?_append_of_ne_nil _ hrest]

theorem extends_integer : Extends integer? := by
  refine .of_cons (fun _ _ h => ?_) fun c => ?_
  · cases h
  by_cases hc : c = '0'
  · exact (Extends.const ['0'] []).congr (by simp [integer?, hc])
  · exact (extends_digits.cons c).congr (by simp [integer?, hc])

theorem extends_fraction : Extends fraction? := by
  refine .of_cons (fun _ _ h => ?_) fun c => ?_
  · exact (Prod.mk.inj (Option.some.inj h)).2.symm
  by_cases hc : c = '.'
  · exact (extends_digits.map ('.' :: ·)).congr (by simp [fraction?, hc])
  · exact (Extends.const [] [c]).congr (by simp [fraction?, hc])

theorem extends_exponent : Extends exponent? := by
  refine .of_cons (fun _ _ h => ?_) fun c => ?_
  · exact (Prod.mk.inj (Option.some.inj h)).2.symm
  by_cases hc : c = 'e' ∨ c = 'E'
  · refine .of_cons (by simp [exponent?, hc, digits?]) fun sign => ?_
    by_cases hplus : sign = '+'
    · exact (extends_digits.map (c :: '+' :: ·)).congr (by simp [exponent?, hc, hplus])
    by_cases hminus : sign = '-'
    · exact (extends_digits.map (c :: '-' :: ·)).congr (by simp [exponent?, hc, hminus])
    · exact ((extends_digits.map (c :: ·)).cons sign).congr (by simp [exponent?, hc, hplus, hminus])
  · exact (Extends.const [] [c]).congr (by simp [exponent?, hc])

theorem extends_unsigned : Extends unsigned? := by
  intro cs ds rest h hrest more
  simp only [unsigned?, Option.bind_eq_bind, Option.pure_def, Option.bind_eq_some_iff, Prod.exists,
    Option.some.injEq, Prod.mk.injEq] at h ⊢
  obtain ⟨i, r₁, hi, f, r₂, hf, e, r₃, he, rfl, rfl⟩ := h
  have hr₂ : r₂ ≠ [] := by
    rintro rfl
    obtain ⟨-, rfl⟩ := Prod.mk.inj (Option.some.inj he)
    exact hrest rfl
  have hr₁ : r₁ ≠ [] := by
    rintro rfl
    obtain ⟨-, rfl⟩ := Prod.mk.inj (Option.some.inj hf)
    exact hr₂ rfl
  exact ⟨i, _, extends_integer hi hr₁ more, f, _, extends_fraction hf hr₂ more, e, _,
    extends_exponent he hrest more, rfl, rfl⟩

theorem extends_numeral : Extends numeral? := by
  refine .of_cons (fun _ _ h => ?_) fun c => ?_
  · cases h
  by_cases hc : c = '-'
  · exact (extends_unsigned.map ('-' :: ·)).congr (by simp [numeral?, hc])
  · exact (extends_unsigned.cons c).congr (by simp [numeral?, hc])

/-- A numeral starts with a digit or a minus sign. -/
theorem exists_cons_of_numeral? {cs ds rest : List Char} (h : numeral? cs = some (ds, rest)) :
    ∃ c cs', cs = c :: cs' ∧ (c.isDigit = true ∨ c = '-') := by
  cases cs with
  | nil => cases h
  | cons c cs =>
    refine ⟨c, cs, rfl, ?_⟩
    by_contra hc
    obtain ⟨hdigit, hminus⟩ := not_or.mp hc
    have hzero : c ≠ '0' := by
      rintro rfl
      exact hdigit (by decide)
    simp [numeral?, hminus, unsigned?, integer?, hzero, digits?, hdigit] at h

/-! ## Values -/

/-- What one level of the reader makes of a text without space in front of it, where the level below
has fuel `n`. -/
inductive Takes (n : Nat) : List Char → Json → List Char → Prop
  | string {body s rest : List Char} (h : stringBody? body = some (s, rest)) :
    Takes n ('"' :: body) (string s) rest
  | emptyArray {body rest : List Char} (h : skipSpace body = ']' :: rest) :
    Takes n ('[' :: body) (array []) rest
  | array {body rest : List Char} {js : List Json} (hne : (skipSpace body).head? ≠ some ']')
    (h : items? n body = some (js, rest)) : Takes n ('[' :: body) (array js) rest
  | emptyObject {body rest : List Char} (h : skipSpace body = '\x7d' :: rest) :
    Takes n ('\x7b' :: body) (object []) rest
  | object {body rest : List Char} {fs : List (List Char × Json)}
    (hne : (skipSpace body).head? ≠ some '\x7d') (h : fields? n body = some (fs, rest)) :
    Takes n ('\x7b' :: body) (object fs) rest
  | null {rest : List Char} : Takes n ('n' :: 'u' :: 'l' :: 'l' :: rest) null rest
  | true {rest : List Char} : Takes n ('t' :: 'r' :: 'u' :: 'e' :: rest) (bool true) rest
  | false {rest : List Char} : Takes n ('f' :: 'a' :: 'l' :: 's' :: 'e' :: rest) (bool false) rest
  | number {cs d rest : List Char} (h : numeral? cs = some (d, rest)) : Takes n cs (number d) rest

theorem takes_of_value? {n : Nat} {cs rest : List Char} {j : Json}
    (h : value? (n + 1) cs = some (j, rest)) : Takes n (skipSpace cs) j rest := by
  rw [value?] at h
  generalize skipSpace cs = t at h ⊢
  split at h
  · obtain ⟨s, hs, rfl⟩ := map_eq_some_pair_iff.mp h
    exact .string hs
  · split at h
    · obtain ⟨rfl, rfl⟩ := Prod.mk.inj (Option.some.inj h)
      exact .emptyArray ‹_›
    · rename_i hne
      obtain ⟨js, hjs, rfl⟩ := map_eq_some_pair_iff.mp h
      refine .array (fun hhead => ?_) hjs
      obtain ⟨r, hr⟩ := List.head?_eq_some_iff.mp hhead
      exact hne r hr
  · split at h
    · obtain ⟨rfl, rfl⟩ := Prod.mk.inj (Option.some.inj h)
      exact .emptyObject ‹_›
    · rename_i hne
      obtain ⟨fs, hfs, rfl⟩ := map_eq_some_pair_iff.mp h
      refine .object (fun hhead => ?_) hfs
      obtain ⟨r, hr⟩ := List.head?_eq_some_iff.mp hhead
      exact hne r hr
  · obtain ⟨rfl, rfl⟩ := Prod.mk.inj (Option.some.inj h)
    exact .null
  · obtain ⟨rfl, rfl⟩ := Prod.mk.inj (Option.some.inj h)
    exact .true
  · obtain ⟨rfl, rfl⟩ := Prod.mk.inj (Option.some.inj h)
    exact .false
  · obtain ⟨d, hd, rfl⟩ := map_eq_some_pair_iff.mp h
    exact .number hd

theorem value?_of_takes {n : Nat} {cs rest : List Char} {j : Json}
    (h : Takes n (skipSpace cs) j rest) : value? (n + 1) cs = some (j, rest) := by
  rw [value?]
  generalize skipSpace cs = t at h ⊢
  cases h with
  | string h => exact map_eq_some_pair_iff.mpr ⟨_, h, rfl⟩
  | emptyArray h => simp [h]
  | array hne h =>
    simp only [h]
    split
    · rename_i hclose
      exact absurd (by rw [hclose]; rfl) hne
    · rfl
  | emptyObject h => simp [h]
  | object hne h =>
    simp only [h]
    split
    · rename_i hclose
      exact absurd (by rw [hclose]; rfl) hne
    · rfl
  | null => rfl
  | true => rfl
  | false => rfl
  | number h =>
    obtain ⟨c, t, rfl, hc⟩ := exists_cons_of_numeral? h
    have hne : ∀ d : Char, d.isDigit = false → d ≠ '-' → c ≠ d := by
      rintro d hdigit hminus rfl
      simp [hdigit, hminus] at hc
    split
    any_goals
      rename_i heq
      exact absurd (List.cons.inj heq).1 (hne _ (by decide) (by decide))
    exact map_eq_some_pair_iff.mpr ⟨_, h, rfl⟩

theorem items?_succ_eq_some_iff {n : Nat} {cs rest : List Char} {js : List Json} :
    items? (n + 1) cs = some (js, rest) ↔ ∃ j r, value? n cs = some (j, r) ∧
      ((∃ r' js', skipSpace r = ',' :: r' ∧ items? n r' = some (js', rest) ∧ js = j :: js') ∨
        skipSpace r = ']' :: rest ∧ js = [j]) := by
  rw [items?]
  simp only [Option.bind_eq_bind, Option.bind_eq_some_iff, Prod.exists]
  refine exists_congr fun j => exists_congr fun r => and_congr_right fun _ => ?_
  generalize skipSpace r = t
  constructor
  · intro h
    split at h
    · obtain ⟨js', hjs, rfl⟩ := map_eq_some_pair_iff.mp h
      exact .inl ⟨_, js', rfl, hjs, rfl⟩
    · obtain ⟨rfl, rfl⟩ := Prod.mk.inj (Option.some.inj h)
      exact .inr ⟨rfl, rfl⟩
    · cases h
  · rintro (⟨r', js', rfl, hjs, rfl⟩ | ⟨rfl, rfl⟩)
    · exact map_eq_some_pair_iff.mpr ⟨js', hjs, rfl⟩
    · rfl

theorem fields?_succ_eq_some_iff {n : Nat} {cs rest : List Char} {fs : List (List Char × Json)} :
    fields? (n + 1) cs = some (fs, rest) ↔ ∃ body k r₁ r₂ j r₃, skipSpace cs = '"' :: body ∧
      stringBody? body = some (k, r₁) ∧ skipSpace r₁ = ':' :: r₂ ∧ value? n r₂ = some (j, r₃) ∧
      ((∃ r fs', skipSpace r₃ = ',' :: r ∧ fields? n r = some (fs', rest) ∧ fs = (k, j) :: fs') ∨
        skipSpace r₃ = '\x7d' :: rest ∧ fs = [(k, j)]) := by
  rw [fields?]
  generalize skipSpace cs = t
  constructor
  · intro h
    split at h
    · simp only [Option.bind_eq_bind, Option.bind_eq_some_iff, Prod.exists] at h
      obtain ⟨k, r₁, hk, h⟩ := h
      split at h
      · rename_i r₂ hcolon
        obtain ⟨⟨j, r₃⟩, hj, h⟩ := Option.bind_eq_some_iff.mp h
        refine ⟨_, k, r₁, r₂, j, r₃, rfl, hk, hcolon, hj, ?_⟩
        dsimp only at h
        split at h
        · obtain ⟨fs', hfs, rfl⟩ := map_eq_some_pair_iff.mp h
          exact .inl ⟨_, fs', ‹_›, hfs, rfl⟩
        · obtain ⟨rfl, rfl⟩ := Prod.mk.inj (Option.some.inj h)
          exact .inr ⟨‹_›, rfl⟩
        · cases h
      · cases h
    · cases h
  · rintro ⟨body, k, r₁, r₂, j, r₃, rfl, hk, hcolon, hj, ⟨r, fs', hcomma, hfs, rfl⟩ | ⟨hclose, rfl⟩⟩
    · simp [hk, hcolon, hj, hcomma, hfs]
    · simp [hk, hcolon, hj, hclose]

theorem Takes.ne_nil {n : Nat} {t rest : List Char} {j : Json} (h : Takes n t j rest) : t ≠ [] := by
  cases h with
  | number h =>
    obtain ⟨c, t, rfl, -⟩ := exists_cons_of_numeral? h
    exact List.cons_ne_nil c t
  | _ => exact List.cons_ne_nil _ _

theorem skipSpace_ne_nil_of_value? {n : Nat} {cs rest : List Char} {j : Json}
    (h : value? n cs = some (j, rest)) : skipSpace cs ≠ [] := by
  cases n with
  | zero => cases h
  | succ n => exact (takes_of_value? h).ne_nil

theorem skipSpace_ne_nil_of_items? {n : Nat} {cs rest : List Char} {js : List Json}
    (h : items? n cs = some (js, rest)) : skipSpace cs ≠ [] := by
  cases n with
  | zero => cases h
  | succ n =>
    obtain ⟨j, r, hj, -⟩ := items?_succ_eq_some_iff.mp h
    exact skipSpace_ne_nil_of_value? hj

theorem skipSpace_ne_nil_of_fields? {n : Nat} {cs rest : List Char}
    {fs : List (List Char × Json)} (h : fields? n cs = some (fs, rest)) : skipSpace cs ≠ [] := by
  cases n with
  | zero => cases h
  | succ n =>
    obtain ⟨body, -, -, -, -, -, hquote, -⟩ := fields?_succ_eq_some_iff.mp h
    rw [hquote]
    exact List.cons_ne_nil _ _

/-! ## Longer texts -/

/-- What the reader takes with fuel `n` it takes from every longer text, and with more fuel. A
numeral has to end before the text does, since more digits would go on with it. -/
structure IsSteady (n : Nat) : Prop where
  value : ∀ {cs rest : List Char} {j : Json}, value? n cs = some (j, rest) →
    (rest = [] → ∀ d, j ≠ number d) → ∀ {m : Nat}, n ≤ m → ∀ more,
    value? m (cs ++ more) = some (j, rest ++ more)
  items : ∀ {cs rest : List Char} {js : List Json}, items? n cs = some (js, rest) →
    ∀ {m : Nat}, n ≤ m → ∀ more, items? m (cs ++ more) = some (js, rest ++ more)
  fields : ∀ {cs rest : List Char} {fs : List (List Char × Json)}, fields? n cs = some (fs, rest) →
    ∀ {m : Nat}, n ≤ m → ∀ more, fields? m (cs ++ more) = some (fs, rest ++ more)

section

variable {n m : Nat} (hn : IsSteady n) (hm : n ≤ m)
include hn hm

theorem Takes.append {t rest : List Char} {j : Json} (h : Takes n t j rest)
    (hend : rest = [] → ∀ d, j ≠ .number d) (more : List Char) :
    Takes m (t ++ more) j (rest ++ more) := by
  cases h with
  | string h => exact .string (stringBody?_append h more)
  | emptyArray h => exact .emptyArray (skipSpace_append_of_eq_cons h more)
  | array hne h =>
    rw [List.cons_append]
    refine .array ?_ (hn.items h hm more)
    have hfirst := skipSpace_ne_nil_of_items? h
    rwa [skipSpace_append hfirst, List.head?_append_of_ne_nil _ hfirst]
  | emptyObject h => exact .emptyObject (skipSpace_append_of_eq_cons h more)
  | object hne h =>
    rw [List.cons_append]
    refine .object ?_ (hn.fields h hm more)
    have hfirst := skipSpace_ne_nil_of_fields? h
    rwa [skipSpace_append hfirst, List.head?_append_of_ne_nil _ hfirst]
  | null => exact .null
  | true => exact .true
  | false => exact .false
  | number h => exact .number (extends_numeral h (fun hnil => hend hnil _ rfl) more)

end

theorem isSteady_succ {n : Nat} (hn : IsSteady n) : IsSteady (n + 1) where
  value := by
    rintro cs rest j h hend (_ | m) hm more
    · omega
    · have htakes := takes_of_value? h
      refine value?_of_takes ?_
      rw [skipSpace_append htakes.ne_nil]
      exact htakes.append hn (Nat.le_of_succ_le_succ hm) hend more
  items := by
    rintro cs rest js h (_ | m) hm more
    · omega
    · have hm := Nat.le_of_succ_le_succ hm
      obtain ⟨j, r, hj, hnext⟩ := items?_succ_eq_some_iff.mp h
      refine items?_succ_eq_some_iff.mpr ⟨j, r ++ more, hn.value hj ?_ hm more, ?_⟩
      · rintro rfl
        rcases hnext with ⟨r', js', hcomma, -⟩ | ⟨hclose, -⟩
        · cases hcomma
        · cases hclose
      · rcases hnext with ⟨r', js', hcomma, hjs, rfl⟩ | ⟨hclose, rfl⟩
        · exact .inl ⟨_, js', skipSpace_append_of_eq_cons hcomma more, hn.items hjs hm more, rfl⟩
        · exact .inr ⟨skipSpace_append_of_eq_cons hclose more, rfl⟩
  fields := by
    rintro cs rest fs h (_ | m) hm more
    · omega
    · have hm := Nat.le_of_succ_le_succ hm
      obtain ⟨body, k, r₁, r₂, j, r₃, hquote, hk, hcolon, hj, hnext⟩ :=
        fields?_succ_eq_some_iff.mp h
      refine fields?_succ_eq_some_iff.mpr ⟨_, k, _, _, j, r₃ ++ more,
        skipSpace_append_of_eq_cons hquote more, stringBody?_append hk more,
        skipSpace_append_of_eq_cons hcolon more, hn.value hj ?_ hm more, ?_⟩
      · rintro rfl
        rcases hnext with ⟨r', fs', hcomma, -⟩ | ⟨hclose, -⟩
        · cases hcomma
        · cases hclose
      · rcases hnext with ⟨r', fs', hcomma, hfs, rfl⟩ | ⟨hclose, rfl⟩
        · exact .inl ⟨_, fs', skipSpace_append_of_eq_cons hcomma more, hn.fields hfs hm more, rfl⟩
        · exact .inr ⟨skipSpace_append_of_eq_cons hclose more, rfl⟩

theorem isSteady (n : Nat) : IsSteady n := by
  induction n with
  | zero =>
    refine ⟨fun h => ?_, fun h => ?_, fun h => ?_⟩
    all_goals cases h
  | succ n ih => exact isSteady_succ ih

/-! ## Texts that are cut off -/

/-- An array is not read as a number. -/
theorem ne_number_of_value? {n : Nat} {cs rest : List Char} {j : Json}
    (h : value? n ('[' :: cs) = some (j, rest)) (d : List Char) : j ≠ number d := by
  rintro rfl
  cases n with
  | zero => cases h
  | succ n =>
    have htakes := takes_of_value? h
    rw [skipSpace_cons (by decide)] at htakes
    cases htakes with
    | number hd => cases hd

/-- A text of an array with space behind it, of which more is missing than that space, is no
document: the reader would take the array from what is left, and what is missing would have to be
space. -/
theorem not_isDocument_of_append_eq {items : List Json} (hitems : AreWhole items)
    {front more space : List Char} (hs : ∀ c ∈ space, isSpace c = true)
    (heq : front ++ more = (array items).render ++ space) (hmore : space.length < more.length) :
    ¬ IsDocument front := by
  rintro ⟨n, j, rest, hvalue, -⟩
  have hj : ∀ d, j ≠ number d := by
    cases front with
    | nil => exact absurd rfl (skipSpace_ne_nil_of_value? hvalue)
    | cons c front =>
      rw [render, List.cons_append, List.cons_append] at heq
      obtain ⟨rfl, -⟩ := List.cons.inj heq
      exact ne_number_of_value? hvalue
  let fuel := n + 2 * (array items).render.length
  have hleft : value? fuel (front ++ more) = some (j, rest ++ more) :=
    (isSteady n).value hvalue (fun _ => hj) (Nat.le_add_right _ _) more
  have hwhole : value? fuel ((array items).render ++ space) = some (array items, space) :=
    value?_render (array items) hitems fuel (Nat.le_add_left _ _) space (endsNumeral_of_isSpace hs)
  rw [heq, hwhole] at hleft
  have hrest := congrArg List.length (Prod.mk.inj (Option.some.inj hleft)).2
  rw [List.length_append] at hrest
  omega

end TextHygiene.Json
