import Mathlib
import TextHygiene.Proofs.FindingOrder
import TextHygiene.Proofs.FlagValues
import TextHygiene.Settings.Reader

/-! What becomes of a settings document. It is refused for a tab size of 0, or else for the first
name in its list that no rule has. Otherwise its settings are in normal form, and settings in normal
form are read back from the document that writes them out. -/

namespace TextHygiene.Settings

/-! ## Extensions -/

/-- An ASCII letter in lower case, or any other character as it is. -/
inductive IsLowerOf (c : Char) : Char → Prop
  | letter {d : Char} (first : 'A' ≤ c) (last : c ≤ 'Z') (shift : d.toNat = c.toNat + 32) :
    IsLowerOf c d
  | other (noLetter : ¬ ('A' ≤ c ∧ c ≤ 'Z')) : IsLowerOf c c

/-- What is kept of an extension: all dots in front are left out, and ASCII letters are put in lower
case. -/
def IsKeptOf (e kept : String) : Prop :=
  ∃ dots base, e.toList = dots ++ base ∧ (∀ c ∈ dots, c = '.') ∧ base.head? ≠ some '.' ∧
    List.Forall₂ IsLowerOf base kept.toList

/-- An extension as it is kept. -/
def IsPlainExtension (e : String) : Prop :=
  e.toList.head? ≠ some '.' ∧ ∀ c ∈ e.toList, ¬ ('A' ≤ c ∧ c ≤ 'Z')

theorem isUpper_iff {c : Char} : c.isUpper = true ↔ 'A' ≤ c ∧ c ≤ 'Z' := by
  simp [Char.isUpper, Char.le_def]

theorem isLowerOf_toLower (c : Char) : IsLowerOf c c.toLower := by
  by_cases hc : c.isUpper = true
  · obtain ⟨first, last⟩ := isUpper_iff.mp hc
    have hlast : c.toNat ≤ 90 := last
    refine .letter first last ?_
    rw [Char.toLower_eq_of_isUpper hc, Char.toNat_ofNat, if_pos (.inl (by omega))]
  · rw [Char.toLower_eq_of_not_isUpper hc]
    exact .other (mt isUpper_iff.mpr hc)

theorem IsLowerOf.eq_toLower {c d : Char} (h : IsLowerOf c d) : d = c.toLower := by
  cases h with
  | letter first last shift =>
    have hlast : c.toNat ≤ 90 := last
    rw [Char.toLower_eq_of_isUpper (isUpper_iff.mpr ⟨first, last⟩), ← shift, Char.ofNat_toNat]
  | other noLetter => rw [Char.toLower_eq_of_not_isUpper (mt isUpper_iff.mp noLetter)]

/-- No letter becomes a dot. -/
theorem IsLowerOf.eq_dot_iff {c d : Char} (h : IsLowerOf c d) : d = '.' ↔ c = '.' := by
  cases h with
  | letter first last shift =>
    have hfirst : 65 ≤ c.toNat := first
    refine iff_of_false ?_ ?_
    · rintro rfl
      have hdot : '.'.toNat = 46 := rfl
      omega
    · rintro rfl
      exact absurd hfirst (by decide)
  | other => exact Iff.rfl

theorem toList_normalizeExtension (e : String) :
    (normalizeExtension e).toList = (e.toList.dropWhile (· = '.')).map Char.toLower :=
  String.toList_ofList

theorem head?_dropWhile_dot (cs : List Char) : (cs.dropWhile (· = '.')).head? ≠ some '.' := by
  intro hhead
  have hnot := List.head?_dropWhile_not (fun c => decide (c = '.')) cs
  rw [hhead] at hnot
  exact absurd hnot (by decide)

theorem dropWhile_dot_of_head?_ne {cs : List Char} (h : cs.head? ≠ some '.') :
    cs.dropWhile (· = '.') = cs := by
  cases cs with
  | nil => rfl
  | cons c rest =>
    have hc : c ≠ '.' := fun hc => h (congrArg some hc)
    rw [List.dropWhile_cons_of_neg (by simpa using hc)]

theorem isKeptOf_normalizeExtension (e : String) : IsKeptOf e (normalizeExtension e) := by
  refine ⟨e.toList.takeWhile (· = '.'), e.toList.dropWhile (· = '.'),
    List.takeWhile_append_dropWhile.symm, ?_, head?_dropWhile_dot e.toList, ?_⟩
  · intro c hc
    simpa using List.mem_takeWhile_imp hc
  · rw [toList_normalizeExtension, List.forall₂_map_right_iff, List.forall₂_same]
    exact fun c _ => isLowerOf_toLower c

/-- There is one way to keep an extension. -/
theorem isKeptOf_iff {e kept : String} : IsKeptOf e kept ↔ kept = normalizeExtension e := by
  constructor
  · rintro ⟨dots, base, heq, hdots, hhead, hlower⟩
    have hbase : e.toList.dropWhile (· = '.') = base := by
      rw [heq, List.dropWhile_append_of_pos fun c hc => decide_eq_true (hdots c hc),
        dropWhile_dot_of_head?_ne hhead]
    have hmap : List.Forall₂ (· = ·) (base.map Char.toLower) kept.toList :=
      List.forall₂_map_left_iff.mpr (hlower.imp fun _ _ h => h.eq_toLower.symm)
    apply String.toList_inj.mp
    rw [toList_normalizeExtension, hbase]
    exact (List.forall₂_eq_eq_eq ▸ hmap).symm
  · rintro rfl
    exact isKeptOf_normalizeExtension e

theorem isPlainExtension_normalizeExtension (e : String) :
    IsPlainExtension (normalizeExtension e) := by
  rw [IsPlainExtension, toList_normalizeExtension]
  constructor
  · rw [List.head?_map]
    intro hhead
    obtain ⟨c, hc, hlower⟩ := Option.map_eq_some_iff.mp hhead
    obtain rfl := (isLowerOf_toLower c).eq_dot_iff.mp hlower
    exact head?_dropWhile_dot _ hc
  · intro c hc
    obtain ⟨d, -, rfl⟩ := List.mem_map.mp hc
    rw [← isUpper_iff, Char.isUpper_toLower_eq_false]
    exact Bool.false_ne_true

/-- An extension that is in normal form is kept as it is. -/
theorem normalizeExtension_of_isPlainExtension {e : String} (h : IsPlainExtension e) :
    normalizeExtension e = e := by
  obtain ⟨hdot, hletters⟩ := h
  have hdrop := dropWhile_dot_of_head?_ne hdot
  have hlower : ∀ c ∈ e.toList, c.toLower = c := fun c hc =>
    Char.toLower_eq_of_not_isUpper (mt isUpper_iff.mp (hletters c hc))
  apply String.toList_inj.mp
  rw [toList_normalizeExtension, hdrop, List.map_congr_left hlower, List.map_id']

/-! ## Settings in normal form -/

/-- Settings as a document leaves them: plain extensions, and the rules in their fixed order, each
once. -/
structure IsNormal (s : Settings) : Prop where
  extensions : ∀ e ∈ s.extensions, IsPlainExtension e
  rules : s.rules.Pairwise (· < ·)

theorem isNormal_default : default.IsNormal where
  extensions := by
    have hkept : ∀ e ∈ defaultExtensions, normalizeExtension e = e := by decide
    intro e he
    rw [← hkept e he]
    exact isPlainExtension_normalizeExtension e
  rules := by decide

namespace Document

variable {d : Document}

/-- A name in the list of a document that no rule has, behind names of rules only. -/
def FirstUnknown (d : Document) (n : String) : Prop :=
  ∃ known rest, d.rules = some (known ++ n :: rest) ∧ (∀ m ∈ known, ∃ r : Rule, r.name = m) ∧
    ∀ r : Rule, r.name ≠ n

/-- A name in the list of a document that no rule has. -/
def HasUnknown (d : Document) : Prop :=
  ∃ names, d.rules = some names ∧ ∃ n ∈ names, ∀ r : Rule, r.name ≠ n

theorem tabSize?_eq_error_iff {e : SettingsError} :
    d.tabSize? = .error e ↔ d.tabSize = some 0 ∧ e = .zeroTabSize := by
  obtain ⟨tabSize, extensions, rules⟩ := d
  match tabSize with
  | none => simp [tabSize?]
  | some 0 => simp [tabSize?, TabSize.ofNat?, eq_comm]
  | some (n + 1) => simp [tabSize?, TabSize.ofNat?]

theorem tabSize?_eq_ok_iff {t : TabSize} :
    d.tabSize? = .ok t ↔ t.width = d.tabSize.getD defaultTabSize.width := by
  obtain ⟨tabSize, extensions, rules⟩ := d
  obtain ⟨width, hwidth⟩ := t
  match tabSize with
  | none => simp [tabSize?, defaultTabSize, eq_comm]
  | some 0 => simp [tabSize?, TabSize.ofNat?]; omega
  | some (n + 1) => simp [tabSize?, TabSize.ofNat?, eq_comm]

theorem rules?_of_some {names : List String} (h : d.rules = some names) :
    d.rules? = (Rule.ofNames names).map Rule.normalize := by
  rw [rules?, h]

theorem rules?_eq_error_iff {e : SettingsError} :
    d.rules? = .error e ↔ ∃ n, d.FirstUnknown n ∧ e = .unknownRule n := by
  cases h : d.rules with
  | none => simp [rules?, FirstUnknown, h]
  | some names =>
    rw [rules?_of_some h, map_eq_error_iff, Rule.ofNames_eq_error_iff]
    simp only [FirstUnknown, h, Option.some.injEq]
    constructor
    · rintro ⟨known, n, rest, heq, hknown, hn, rfl⟩
      exact ⟨n, ⟨known, rest, heq, hknown, hn⟩, rfl⟩
    · rintro ⟨n, ⟨known, rest, heq, hknown, hn⟩, rfl⟩
      exact ⟨known, n, rest, heq, hknown, hn, rfl⟩

theorem rules?_eq_ok_iff {rs : List Rule} :
    d.rules? = .ok rs ↔ d.rules = none ∧ rs = Rule.all ∨
      ∃ listed : List Rule, d.rules = some (listed.map Rule.name) ∧ rs = Rule.normalize listed := by
  cases h : d.rules with
  | none => simp [rules?, h, eq_comm]
  | some names =>
    rw [rules?_of_some h, map_eq_ok_iff]
    simp only [Rule.ofNames_eq_ok_iff, reduceCtorEq, false_and, false_or, Option.some.injEq,
      eq_comm (a := rs)]

/-- There is a first unknown name as soon as there is an unknown name. -/
theorem exists_firstUnknown_iff : (∃ n, d.FirstUnknown n) ↔ d.HasUnknown := by
  constructor
  · rintro ⟨n, known, rest, h, -, hn⟩
    exact ⟨_, h, n, List.mem_append_right known List.mem_cons_self, hn⟩
  · rintro ⟨names, h, n, hmem, hn⟩
    cases hrules : d.rules? with
    | error e =>
      obtain ⟨n, hfirst, -⟩ := rules?_eq_error_iff.mp hrules
      exact ⟨n, hfirst⟩
    | ok rs =>
      rcases rules?_eq_ok_iff.mp hrules with ⟨hnone, -⟩ | ⟨listed, hlisted, -⟩
      · rw [h] at hnone
        cases hnone
      · obtain rfl := Option.some.inj (h.symm.trans hlisted)
        obtain ⟨r, -, hr⟩ := List.mem_map.mp hmem
        exact absurd hr (hn r)

end Document

/-! ## Reading a document -/

variable {d : Document}

theorem ofDocument_eq_error_iff {e : SettingsError} :
    ofDocument d = .error e ↔ d.tabSize = some 0 ∧ e = .zeroTabSize ∨
      d.tabSize ≠ some 0 ∧ ∃ n, d.FirstUnknown n ∧ e = .unknownRule n := by
  rw [← Document.rules?_eq_error_iff, ofDocument]
  cases ht : d.tabSize? with
  | error e' =>
    obtain ⟨hzero, rfl⟩ := Document.tabSize?_eq_error_iff.mp ht
    simp [hzero, eq_comm]
  | ok t =>
    have hzero : d.tabSize ≠ some 0 := fun hzero =>
      nomatch ht.symm.trans (Document.tabSize?_eq_error_iff.mpr ⟨hzero, rfl⟩)
    cases d.rules? <;> simp [hzero]

theorem ofDocument_eq_ok_iff {s : Settings} :
    ofDocument d = .ok s ↔ d.tabSize? = .ok s.tabSize ∧ d.rules? = .ok s.rules ∧
      s.extensions = (d.extensions.map (·.map normalizeExtension)).getD defaultExtensions := by
  obtain ⟨tabSize, extensions, rules⟩ := s
  rw [ofDocument]
  cases d.tabSize? with
  | error e => simp
  | ok t =>
    cases d.rules? with
    | error e => simp
    | ok rs =>
      simp only [Except.ok.injEq, Settings.mk.injEq]
      tauto

theorem exists_ofDocument_eq_ok_iff :
    (∃ s, ofDocument d = .ok s) ↔ d.tabSize ≠ some 0 ∧ ¬ d.HasUnknown := by
  have herror : (∃ e, ofDocument d = .error e) ↔ d.tabSize = some 0 ∨ d.HasUnknown := by
    simp only [ofDocument_eq_error_iff, ← Document.exists_firstUnknown_iff]
    by_cases hzero : d.tabSize = some 0
    · simp [hzero]
    · simp [hzero, exists_comm]
  rw [← not_or, ← herror]
  cases ofDocument d <;> simp

/-- What is read is in normal form. -/
theorem isNormal_of_ofDocument {s : Settings} (h : ofDocument d = .ok s) : s.IsNormal := by
  obtain ⟨-, hrules, hextensions⟩ := ofDocument_eq_ok_iff.mp h
  constructor
  · rw [hextensions]
    cases d.extensions with
    | none => exact isNormal_default.extensions
    | some es =>
      intro e he
      obtain ⟨e', -, rfl⟩ := List.mem_map.mp he
      exact isPlainExtension_normalizeExtension e'
  · rcases Document.rules?_eq_ok_iff.mp hrules with ⟨-, heq⟩ | ⟨listed, -, heq⟩
    · rw [heq]
      exact isNormal_default.rules
    · rw [heq]
      exact Rule.pairwise_normalize listed

/-- Settings in normal form are what their document is read as. -/
theorem ofDocument_toDocument {s : Settings} (h : s.IsNormal) :
    ofDocument (toDocument s) = .ok s := by
  refine ofDocument_eq_ok_iff.mpr ⟨Document.tabSize?_eq_ok_iff.mpr rfl, ?_, ?_⟩
  · refine Document.rules?_eq_ok_iff.mpr (.inr ⟨s.rules, rfl, ?_⟩)
    rw [Rule.normalize_of_pairwise h.rules]
  · have hkept : ∀ e ∈ s.extensions, normalizeExtension e = e := fun e he =>
      normalizeExtension_of_isPlainExtension (h.extensions e he)
    calc s.extensions = s.extensions.map id := (List.map_id _).symm
      _ = s.extensions.map normalizeExtension := List.map_congr_left fun e he => (hkept e he).symm

/-- No error of a document is about its text. -/
theorem ofDocument_ne_malformed (d : Document) (p : Path) (text : List Char) :
    ofDocument d ≠ .error (.malformed p text) := by
  intro h
  rcases ofDocument_eq_error_iff.mp h with ⟨-, heq⟩ | ⟨-, n, -, heq⟩
  · cases heq
  · cases heq

theorem ofText_eq_malformed_iff {document? : List Char → Option Document} {origin : Path}
    {text : List Char} :
    ofText document? origin text = .error (.malformed origin text) ↔ document? text = none := by
  rw [ofText]
  cases document? text with
  | none => simp
  | some d => simp [ofDocument_ne_malformed]

theorem ofText_of_eq_some {document? : List Char → Option Document} {text : List Char}
    (h : document? text = some d) (origin : Path) :
    ofText document? origin text = ofDocument d := by
  rw [ofText, h]

/-- The fields of what is read, as the document gives them or leaves them out. -/
theorem fields_of_ofDocument {s : Settings} (h : ofDocument d = .ok s) :
    s.tabSize.width = d.tabSize.getD default.tabSize.width ∧
    (∀ names, d.rules = some names → ∀ r, r ∈ s.rules ↔ r.name ∈ names) ∧
    (d.rules = none → s.rules = default.rules) ∧
    (∀ es, d.extensions = some es → List.Forall₂ IsKeptOf es s.extensions) ∧
    (d.extensions = none → s.extensions = default.extensions) := by
  obtain ⟨htab, hrules, hextensions⟩ := ofDocument_eq_ok_iff.mp h
  refine ⟨Document.tabSize?_eq_ok_iff.mp htab, ?_, ?_, ?_, ?_⟩
  · intro names hnames r
    rcases Document.rules?_eq_ok_iff.mp hrules with ⟨hnone, -⟩ | ⟨listed, hlisted, heq⟩
    · rw [hnames] at hnone
      cases hnone
    · obtain rfl := Option.some.inj (hnames.symm.trans hlisted)
      rw [heq, Rule.mem_normalize, List.mem_map_of_injective fun _ _ => Rule.name_injective]
  · intro hnone
    rcases Document.rules?_eq_ok_iff.mp hrules with ⟨-, heq⟩ | ⟨listed, hlisted, -⟩
    · exact heq
    · rw [hnone] at hlisted
      cases hlisted
  · intro es hes
    rw [hextensions, hes, Option.map_some, Option.getD_some, List.forall₂_map_right_iff,
      List.forall₂_same]
    exact fun e _ => isKeptOf_normalizeExtension e
  · intro hnone
    rw [hextensions, hnone]
    rfl

/-- A document is refused for a tab size of 0, else for the first name in its list that no rule has,
and else it is read. Its settings then have a tab size of 1 at least, the listed rules in their
fixed order and each once, the listed extensions as they are kept, and the defaults for what is left
out; written out, they are read as themselves. A text of which a reader makes no document is refused
before that. -/
theorem document_is_checked_then_normalized (d : Document) :
    (ofDocument d = .error .zeroTabSize ↔ d.tabSize = some 0) ∧
    (∀ n, ofDocument d = .error (.unknownRule n) ↔ d.tabSize ≠ some 0 ∧ d.FirstUnknown n) ∧
    ((∃ n, ofDocument d = .error (.unknownRule n)) ↔ d.tabSize ≠ some 0 ∧ d.HasUnknown) ∧
    ((∃ s, ofDocument d = .ok s) ↔ d.tabSize ≠ some 0 ∧ ¬ d.HasUnknown) ∧
    (∀ s, ofDocument d = .ok s →
      (1 ≤ s.tabSize.width ∧ s.tabSize.width = d.tabSize.getD default.tabSize.width) ∧
      (s.rules.Pairwise (· < ·) ∧
        (∀ names, d.rules = some names → ∀ r, r ∈ s.rules ↔ r.name ∈ names) ∧
        (d.rules = none → s.rules = default.rules)) ∧
      ((∀ es, d.extensions = some es → List.Forall₂ IsKeptOf es s.extensions) ∧
        (d.extensions = none → s.extensions = default.extensions)) ∧
      ofDocument (toDocument s) = .ok s) ∧
    ∀ document? origin text,
      (document? text = none ↔ ofText document? origin text = .error (.malformed origin text)) ∧
      (document? text = some d → ofText document? origin text = ofDocument d) := by
  have hunknown : ∀ n, ofDocument d = .error (.unknownRule n) ↔
      d.tabSize ≠ some 0 ∧ d.FirstUnknown n := by
    intro n
    simp [ofDocument_eq_error_iff]
  refine ⟨?_, hunknown, ?_, exists_ofDocument_eq_ok_iff, fun s h => ?_,
    fun document? origin text => ?_⟩
  · simp [ofDocument_eq_error_iff]
  · simp only [hunknown, exists_and_left, Document.exists_firstUnknown_iff]
  · obtain ⟨hwidth, hlisted, hrules, hkept, hextensions⟩ := fields_of_ofDocument h
    have hnormal := isNormal_of_ofDocument h
    exact ⟨⟨s.tabSize.width_pos, hwidth⟩, ⟨hnormal.rules, hlisted, hrules⟩, ⟨hkept, hextensions⟩,
      ofDocument_toDocument hnormal⟩
  · exact ⟨ofText_eq_malformed_iff.symm, fun h => ofText_of_eq_some h origin⟩

/-- Dots and capitals go, and a rule that is listed twice is run once. A tab size of 0 is told before
an unknown rule, and a missing bracket before both. -/
theorem listed_rules_are_put_in_order :
    let d : Document :=
      { extensions := some ["..Cs", "hlsl"], rules := some ["plain-ascii", "tabs", "plain-ascii"] }
    let s : Settings := ⟨defaultTabSize, ["cs", "hlsl"], [.tabs, .plainAscii]⟩
    let unclosed := "tab_size = 0\nrules = [\"spaces\"".toList
    ofDocument d = .ok s ∧ ofDocument (toDocument s) = .ok s ∧
      ofDocument { d with tabSize := some 0, rules := some ["spaces"] } = .error .zeroTabSize ∧
      parse [0x66] "rules = [\"tabs\", \"spaces\", \"lines\"]".toList =
        .error (.unknownRule "spaces") ∧
      parse [0x66] unclosed = .error (.malformed [0x66] unclosed) := by
  intro d s unclosed
  have hs : ofDocument d = .ok s := by decide
  let d' : Document := { rules := some ["tabs", "spaces", "lines"] }
  have hspaces : d'.FirstUnknown "spaces" := by
    refine ⟨["tabs"], ["lines"], rfl, List.forall_mem_singleton.mpr ⟨.tabs, rfl⟩, ?_⟩
    intro r
    cases r <;> decide
  have hread : Document.parse? "rules = [\"tabs\", \"spaces\", \"lines\"]".toList = some d' := by
    cbv
  have hbracket : Document.parse? "tab_size = 0\nrules = [\"spaces\"".toList = none := by cbv
  obtain ⟨-, -, -, -, hok, htext⟩ := document_is_checked_then_normalized d
  obtain ⟨-, hunknown, -, -, -, htext'⟩ := document_is_checked_then_normalized d'
  refine ⟨hs, (hok s hs).2.2.2, (document_is_checked_then_normalized _).1.mpr rfl, ?_, ?_⟩
  · rw [parse, (htext' Document.parse? _ _).2 hread]
    exact (hunknown "spaces").mpr ⟨by decide, hspaces⟩
  · exact (htext Document.parse? _ _).1.mp hbracket

end TextHygiene.Settings
