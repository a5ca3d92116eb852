import TextHygiene.Command.Run

/-! The values that the flags of a check take. A numeral of a word is read to its value, a list of
rule names is refused for its first name that no rule has, and the threads are a word above 0 or
left to the host. -/

namespace TextHygiene

/-! ## Numerals -/

namespace Decimal

/-- The numerals of a word, with their value: decimal digits, leading zeros included, behind an
optional plus sign. -/
def IsWord (cs : List Char) (n : Nat) : Prop :=
  ∃ digits, (cs = digits ∨ cs = '+' :: digits) ∧ digits ≠ [] ∧ (∀ c ∈ digits, c.isDigit = true) ∧
    Nat.ofDigitChars 10 digits 0 = n ∧ n < UInt64.size

theorem digit?_of_isDigit {c : Char} (h : c.isDigit = true) :
    digit? c = some (c.toNat - '0'.toNat) := if_pos h

theorem digit?_of_not_isDigit {c : Char} (h : c.isDigit ≠ true) : digit? c = none := if_neg h

/-- More digits never make a value smaller. -/
theorem le_ofDigitChars (value : Nat) (cs : List Char) : value ≤ Nat.ofDigitChars 10 cs value := by
  induction cs generalizing value with
  | nil => exact Nat.le_refl value
  | cons c rest ih =>
    rw [Nat.ofDigitChars_cons]
    have hrest := ih (10 * value + (c.toNat - '0'.toNat))
    omega

theorem wordFrom_eq_ok_iff {value n : Nat} {cs : List Char} (hvalue : value < wordLimit) :
    wordFrom value cs = .ok n ↔
      (∀ c ∈ cs, c.isDigit = true) ∧ Nat.ofDigitChars 10 cs value = n ∧ n < wordLimit := by
  induction cs generalizing value with
  | nil =>
    rw [wordFrom, Except.ok.injEq]
    constructor
    · rintro rfl
      exact ⟨fun _ hmem => absurd hmem List.not_mem_nil, rfl, hvalue⟩
    · rintro ⟨-, rfl, -⟩
      rfl
  | cons c rest ih =>
    rw [wordFrom, List.forall_mem_cons, Nat.ofDigitChars_cons]
    by_cases hc : c.isDigit = true
    · rw [digit?_of_isDigit hc]
      by_cases hnext : 10 * value + (c.toNat - '0'.toNat) < wordLimit
      · simp only [if_pos hnext, ih hnext, hc, true_and]
      · simp only [if_neg hnext, reduceCtorEq, false_iff]
        rintro ⟨-, rfl, hlimit⟩
        have hle := le_ofDigitChars (10 * value + (c.toNat - '0'.toNat)) rest
        omega
    · simp [digit?_of_not_isDigit hc, hc]

theorem word_eq_ok_iff {cs : List Char} {n : Nat} : word cs = .ok n ↔ IsWord cs n := by
  have hzero : 0 < wordLimit := by decide
  have hplus : '+'.isDigit ≠ true := by decide
  unfold word
  split
  · simp [IsWord]
  · simp [IsWord, hplus]
  · rename_i rest hrest
    rw [wordFrom_eq_ok_iff hzero]
    constructor
    · rintro ⟨hdigits, hvalue⟩
      exact ⟨rest, .inr rfl, fun hnil => hrest (hnil ▸ rfl), hdigits, hvalue⟩
    · rintro ⟨digits, rfl | heq, -, hdigits, hvalue⟩
      · exact absurd (hdigits '+' List.mem_cons_self) hplus
      · obtain ⟨-, rfl⟩ := List.cons.inj heq
        exact ⟨hdigits, hvalue⟩
  · rename_i hnil _ hsign
    rw [wordFrom_eq_ok_iff hzero]
    constructor
    · rintro ⟨hdigits, hvalue⟩
      exact ⟨cs, .inl rfl, hnil, hdigits, hvalue⟩
    · rintro ⟨digits, rfl | rfl, -, hdigits, hvalue⟩
      · exact ⟨hdigits, hvalue⟩
      · exact absurd rfl (hsign digits)

end Decimal

/-! ## Names of rules -/

section

variable {ε α β : Type} {f : α → β} {x : Except ε α}

theorem map_eq_ok_iff {b : β} : x.map f = .ok b ↔ ∃ a, x = .ok a ∧ f a = b := by
  cases x <;> simp [Except.map]

theorem map_eq_error_iff {e : ε} : x.map f = .error e ↔ x = .error e := by
  cases x <;> simp [Except.map]

end

namespace Rule

theorem ofName?_eq_some_iff {n : String} {r : Rule} : ofName? n = some r ↔ r.name = n := by
  constructor
  · intro h
    simpa using List.find?_some h
  · rintro rfl
    exact ofName?_name r

theorem ofName?_eq_none_iff {n : String} : ofName? n = none ↔ ∀ r : Rule, r.name ≠ n := by
  rw [Option.eq_none_iff_forall_ne_some]
  exact forall_congr' fun r => not_congr ofName?_eq_some_iff

theorem name_injective {q r : Rule} (h : q.name = r.name) : q = r := by
  have hq := ofName?_name q
  rw [h, ofName?_name] at hq
  exact (Option.some.inj hq).symm

theorem ofNames_eq_ok_iff {names : List String} {rs : List Rule} :
    ofNames names = .ok rs ↔ names = rs.map name := by
  induction names generalizing rs with
  | nil => simp [ofNames, eq_comm]
  | cons n rest ih =>
    rw [ofNames]
    cases h : ofName? n with
    | none =>
      rw [ofName?_eq_none_iff] at h
      simp only [reduceCtorEq, false_iff]
      intro heq
      obtain ⟨r, rs', rfl, hr, -⟩ := List.map_eq_cons_iff.mp heq.symm
      exact h r hr
    | some r =>
      rw [ofName?_eq_some_iff] at h
      dsimp only
      rw [map_eq_ok_iff]
      constructor
      · rintro ⟨rs', hrest, rfl⟩
        rw [List.map_cons, h, ih.mp hrest]
      · intro heq
        obtain ⟨q, rs', rfl, hq, hrest⟩ := List.map_eq_cons_iff.mp heq.symm
        obtain rfl := name_injective (hq.trans h.symm)
        exact ⟨rs', ih.mpr hrest.symm, rfl⟩

/-- A list of names is refused for the first name that no rule has. -/
theorem ofNames_eq_error_iff {names : List String} {e : SettingsError} :
    ofNames names = .error e ↔ ∃ known n rest, names = known ++ n :: rest ∧
      (∀ m ∈ known, ∃ r : Rule, r.name = m) ∧ (∀ r : Rule, r.name ≠ n) ∧ e = .unknownRule n := by
  induction names with
  | nil => simp [ofNames]
  | cons n rest ih =>
    rw [ofNames]
    cases h : ofName? n with
    | none =>
      rw [ofName?_eq_none_iff] at h
      simp only [Except.error.injEq]
      constructor
      · rintro rfl
        exact ⟨[], n, rest, rfl, fun _ hmem => absurd hmem List.not_mem_nil, h, rfl⟩
      · rintro ⟨known, m, later, heq, hknown, -, rfl⟩
        cases known with
        | nil => rw [(List.cons.inj heq).1]
        | cons k known =>
          obtain ⟨r, hr⟩ := hknown k List.mem_cons_self
          exact absurd (hr.trans (List.cons.inj heq).1.symm) (h r)
    | some r =>
      rw [ofName?_eq_some_iff] at h
      dsimp only
      rw [map_eq_error_iff, ih]
      constructor
      · rintro ⟨known, m, later, rfl, hknown, hm⟩
        exact ⟨n :: known, m, later, rfl, List.forall_mem_cons.mpr ⟨⟨r, h⟩, hknown⟩, hm⟩
      · rintro ⟨known, m, later, heq, hknown, hm, he⟩
        cases known with
        | nil => exact absurd (h.trans (List.cons.inj heq).1) (hm r)
        | cons k known =>
          exact ⟨known, m, later, (List.cons.inj heq).2, (List.forall_mem_cons.mp hknown).2, hm, he⟩

end Rule

/-! ## Thread counts -/

namespace Command

/-- The word that leaves the number of threads to the host. -/
def IsAuto (value : String) : Prop := value.toList.map Char.toLower = "auto".toList

/-- What may be asked for as the number of threads. -/
def IsThreadCount (value : String) : Prop :=
  IsAuto value ∨ ∃ n, Decimal.IsWord value.toList n ∧ 1 ≤ n

theorem threads_of_isAuto {value : String} (h : IsAuto value) : threads value = .ok none := if_pos h

theorem threads_of_not_isAuto {value : String} (h : ¬ IsAuto value) :
    threads value = match Decimal.word value.toList with
      | .error e => .error (.threadsNumeral value e)
      | .ok n => if n = 0 then .error .zeroThreads else .ok (some n) := if_neg h

theorem threads_eq_error_iff {value : String} {e : StepError} :
    threads value = .error e ↔ ¬ IsAuto value ∧
      (Decimal.IsWord value.toList 0 ∧ e = .zeroThreads ∨
        ∃ why, Decimal.word value.toList = .error why ∧ e = .threadsNumeral value why) := by
  by_cases hauto : IsAuto value
  · simp [threads_of_isAuto hauto, hauto]
  · rw [threads_of_not_isAuto hauto, ← Decimal.word_eq_ok_iff]
    cases Decimal.word value.toList with
    | error why => simp [hauto, eq_comm]
    | ok n =>
      by_cases hn : n = 0
      · simp [hauto, hn, eq_comm]
      · simp [hauto, hn]

theorem exists_threads_eq_error_iff {value : String} :
    (∃ e, threads value = .error e) ↔ ¬ IsThreadCount value := by
  by_cases hauto : IsAuto value
  · simp [threads_of_isAuto hauto, IsThreadCount, hauto]
  · simp only [threads_of_not_isAuto hauto, IsThreadCount, hauto, false_or,
      ← Decimal.word_eq_ok_iff]
    cases Decimal.word value.toList with
    | error why => simp
    | ok n =>
      by_cases hn : n = 0
      · simp [hn]
      · simp [hn, Nat.one_le_iff_ne_zero]

/-- Any case of the word is taken, and so are leading zeros behind a plus sign. -/
example : threads "AuTo" = .ok none ∧ threads "+007" = .ok (some 7) := ⟨rfl, rfl⟩

end Command

end TextHygiene
