import TextHygiene.Proofs.CheckSteps
import TextHygiene.Proofs.DiscoveryExactness
import TextHygiene.Proofs.ReportReading
import TextHygiene.Proofs.SurveyExactness

/-! The exit status of a check. It is 0 exactly when every enabled rule passes on every file that is
found and not left out, and exactly when the report has no entries; otherwise it is 1 and the report
has the failures, path by path and rule by rule. -/

namespace TextHygiene

namespace Report

/-- The report with no entries. -/
def blank : Format → Bytes
  | .text => []
  | .json => Utf8.encode ['[', ']', '\n']

theorem text_text_ne_nil (f : Finding) (rest : List Finding) : text .text (f :: rest) ≠ [] := by
  simp [text, pieces, line]

/-- Only the report on no findings has no entries. -/
theorem bytes_eq_blank_iff {format : Format} {fs : List Finding} :
    bytes format fs = blank format ↔ fs = [] := by
  have hblank : blank format = bytes format [] := by cases format <;> rfl
  rw [hblank]
  constructor
  · intro h
    cases format with
    | json =>
      have hitems := items_eq_of_bytes_eq h
      exact List.map_eq_nil_iff.mp hitems
    | text =>
      cases fs with
      | nil => rfl
      | cons f rest =>
        have hdecode := decode?_bytes .text (f :: rest)
        rw [h, decode?_bytes] at hdecode
        exact absurd (Option.some.inj hdecode).symm (text_text_ne_nil f rest)
  · rintro rfl
    rfl

end Report

namespace Survey

variable {fs : FileSystem} {t : TabSize} {o : Options} {paths : List Path}

theorem failures_reference_eq_zero_iff :
    (reference fs t o paths).tally.failures = 0 ↔ (reference fs t o paths).findings = [] :=
  List.length_eq_zero_iff

/-- The failures that are found, without their positions in the list of paths. -/
theorem exists_mem_reference_iff {r : Rule} {f : Failure} :
    (∃ i, ⟨i, r, f⟩ ∈ (reference fs t o paths).findings) ↔
      (f.path ∈ paths ∧ ¬ IsSkipped fs o.maxFileSize f.path) ∧ r ∈ o.rules ∧
        fs.check t r f.path = some f := by
  simp only [mem_findings_reference]
  constructor
  · rintro ⟨i, p, hget, hskip, hr, hcheck⟩
    obtain rfl := FileSystem.path_of_check_eq_some hcheck
    exact ⟨⟨List.mem_of_getElem? hget, hskip⟩, hr, hcheck⟩
  · rintro ⟨⟨hmem, hskip⟩, hr, hcheck⟩
    obtain ⟨i, hget⟩ := List.getElem?_of_mem hmem
    exact ⟨i, f.path, hget, hskip, hr, hcheck⟩

theorem findings_reference_eq_nil_iff :
    (reference fs t o paths).findings = [] ↔
      ∀ p ∈ paths, ¬ IsSkipped fs o.maxFileSize p → ∀ r ∈ o.rules, fs.check t r p = none := by
  constructor
  · intro hnil p hp hskip r hr
    rw [Option.eq_none_iff_forall_ne_some]
    intro f hcheck
    obtain rfl := FileSystem.path_of_check_eq_some hcheck
    obtain ⟨i, hmem⟩ := exists_mem_reference_iff.mpr ⟨⟨hp, hskip⟩, hr, hcheck⟩
    rw [hnil] at hmem
    cases hmem
  · intro hpass
    refine List.eq_nil_iff_forall_not_mem.mpr fun f hf => ?_
    obtain ⟨⟨hp, hskip⟩, hr, hcheck⟩ := exists_mem_reference_iff.mp ⟨f.fileIndex, hf⟩
    rw [hpass _ hp hskip _ hr] at hcheck
    cases hcheck

/-- Where the paths are in order, so are the failures. -/
theorem pairwise_reference {lt : Path → Path → Prop} (hpaths : paths.Pairwise lt) :
    (reference fs t o paths).findings.Pairwise fun f g =>
      lt f.failure.path g.failure.path ∨ f.failure.path = g.failure.path ∧ f.rule < g.rule := by
  have hget : ∀ f ∈ (reference fs t o paths).findings,
      paths[f.fileIndex]? = some f.failure.path := fun f hf => (check_of_mem_reference hf).1
  refine (increasing_reference fs t o paths).imp_of_mem fun {f g} hf hg hbefore => ?_
  rcases hbefore with hlt | ⟨heq, hrule⟩
  · obtain ⟨hi, hfi⟩ := List.getElem?_eq_some_iff.mp (hget f hf)
    obtain ⟨hj, hgj⟩ := List.getElem?_eq_some_iff.mp (hget g hg)
    rw [← hfi, ← hgj]
    exact .inl (List.pairwise_iff_getElem.mp hpaths _ _ hi hj hlt)
  · have hsame := hget f hf
    rw [heq, hget g hg] at hsame
    exact .inr ⟨(Option.some.inj hsame).symm, hrule⟩

end Survey

namespace Command

/-- The flags that are given have values that a check takes. -/
structure CheckArguments.IsValid (a : CheckArguments) : Prop where
  tabSize : a.tabSize ≠ some 0
  rules : ∀ n ∈ a.rules, ∃ r : Rule, r.name = n
  threads : ∀ value, a.threads = some value → IsThreadCount value

/-- The tab size of the settings, or the one that is given. -/
def CheckArguments.effectiveTabSize (a : CheckArguments) (s : Settings) : Nat :=
  a.tabSize.getD s.tabSize.width

/-- The rules of the settings, or those that are given. -/
def CheckArguments.effectiveRules (a : CheckArguments) (s : Settings) : List Rule :=
  if a.rules = [] then s.rules else a.rules.filterMap Rule.ofName?

section

variable {a : CheckArguments} {s : Settings}

theorem tabSize_of_isValid (h : a.IsValid) :
    tabSize s a.tabSize = .ok (a.effectiveTabSize s) := by
  rw [CheckArguments.effectiveTabSize]
  cases ht : a.tabSize with
  | none => rfl
  | some n =>
    cases n with
    | zero => exact absurd ht h.tabSize
    | succ n => rfl

theorem rules_of_isValid (h : a.IsValid) : rules s a.rules = .ok (a.effectiveRules s) := by
  have hnames : ∃ rs, Rule.ofNames a.rules = .ok rs := by
    cases hr : Rule.ofNames a.rules with
    | ok rs => exact ⟨rs, rfl⟩
    | error why =>
      obtain ⟨known, n, rest, hlisted, -, hunknown, -⟩ := Rule.ofNames_eq_error_iff.mp hr
      obtain ⟨r, hname⟩ := h.rules n (by simp [hlisted])
      exact absurd hname (hunknown r)
  obtain ⟨rs, hrs⟩ := hnames
  have hfilter : a.rules.filterMap Rule.ofName? = rs := by
    rw [Rule.ofNames_eq_ok_iff.mp hrs, List.filterMap_map]
    simp [Rule.ofName?_name]
  rw [CheckArguments.effectiveRules, hfilter]
  cases hr : a.rules with
  | nil => rfl
  | cons n rest =>
    rw [rules, if_neg (List.cons_ne_nil n rest), ← hr, hrs]
    · rfl
    · exact List.cons_ne_nil n rest

theorem exists_threads_of_isValid (h : a.IsValid) :
    ∃ n, threads (a.threads.getD "auto") = .ok n := by
  cases hn : threads (a.threads.getD "auto") with
  | ok n => exact ⟨n, rfl⟩
  | error e =>
    have hfails : Fails .empty a .threads e := fails_threads_iff.mpr hn
    obtain ⟨value, hgiven, hcount⟩ := exists_fails_threads_iff.mp ⟨e, hfails⟩
    exact absurd (h.threads value hgiven) hcount

/-- With valid flags and settings that load, a check has its options. -/
theorem exists_options_of_isValid {fs : FileSystem} (hs : settings fs a.config = .ok s)
    (h : a.IsValid) :
    ∃ n, options fs a = .ok (a.resolve s (a.effectiveTabSize s) (a.effectiveRules s) n) := by
  obtain ⟨n, hn⟩ := exists_threads_of_isValid h
  refine ⟨n, ?_⟩
  simp only [options, hs, tabSize_of_isValid h, rules_of_isValid h, hn]
  rfl

end

/-- A file that is found and is not left out for its size. -/
def IsChecked (fs : FileSystem) (a : CheckArguments) (s : Settings) (p : Path) : Prop :=
  p ∈ fs.discover s.extensions (input a) ∧ ¬ Survey.IsSkipped fs a.maxFileSize p

theorem exitCode_eq_zero_iff {t : Tally} : exitCode t = 0 ↔ t.failures = 0 := by
  rw [exitCode]
  split <;> simp [*]

/-- A check to the standard output exits with 0 exactly when every enabled rule passes on every file
that is checked, and exactly when its report has no entries. Otherwise it exits with 1. The report
has exactly the failures, in the order of the paths and then of the rules. -/
theorem exit_status_tells_failures (texts : Texts) {host : Survey.Host} (hh : host.IsComplete)
    {fs : FileSystem} (hfs : fs.root.WellFormed) {arguments : List Argument} {a : CheckArguments}
    {s : Settings} (hargs : Invocation.ofArguments arguments = .check a) (hout : a.output = none)
    (hs : settings fs a.config = .ok s) (hvalid : a.IsValid) :
    ∃ t : TabSize, t.width = a.effectiveTabSize s ∧
      ((run texts host fs arguments).code = 0 ↔
        ∀ p, IsChecked fs a s p → ∀ r ∈ a.effectiveRules s, fs.check t r p = none) ∧
      ((run texts host fs arguments).code = 0 ↔
        (run texts host fs arguments).stdout = Report.blank (a.format.getD .text)) ∧
      ((run texts host fs arguments).code ≠ 0 → (run texts host fs arguments).code = 1) ∧
      (run texts host fs arguments).errors = [] ∧
      ∃ findings, (run texts host fs arguments).stdout =
          Report.bytes (a.format.getD .text) findings ∧
        (∀ r f, (∃ i, ⟨i, r, f⟩ ∈ findings) ↔
          IsChecked fs a s f.path ∧ r ∈ a.effectiveRules s ∧ fs.check t r f.path = some f) ∧
        findings.Pairwise fun f g => f.failure.path.names < g.failure.path.names ∨
          f.failure.path = g.failure.path ∧ f.rule < g.rule := by
  obtain ⟨n, ho⟩ := exists_options_of_isValid hs hvalid
  have hpos : 0 < a.effectiveTabSize s := tabSize_pos (tabSize_of_isValid hvalid)
  let t : TabSize := ⟨a.effectiveTabSize s, hpos⟩
  let o : Options := a.resolve s (a.effectiveTabSize s) (a.effectiveRules s) n
  let report : Survey := found fs t o (input a)
  have hrun : run texts host fs arguments =
      { code := exitCode report.tally
        stdout := Report.bytes (a.format.getD .text) report.findings
        files := fs } := by
    rw [run_eq_checkToStdout hargs ho hout]
    exact checkToStdout_eq (o := o) hh rfl
  have hcode : (run texts host fs arguments).code = 0 ↔ report.findings = [] := by
    rw [hrun, exitCode_eq_zero_iff]
    exact Survey.failures_reference_eq_zero_iff
  refine ⟨t, rfl, ?_, ?_, ?_, by rw [hrun], report.findings, by rw [hrun], ?_, ?_⟩
  · rw [hcode]
    refine Survey.findings_reference_eq_nil_iff.trans ?_
    exact forall_congr' fun p => and_imp.symm
  · rw [hcode, hrun, Report.bytes_eq_blank_iff]
  · rw [hrun, exitCode]
    split <;> simp
  · exact fun r f => Survey.exists_mem_reference_iff
  · exact Survey.pairwise_reference (FileSystem.pairwise_discover hfs s.extensions (input a))

/-- A folder with settings, two files with tabs, of which one is long, and a file without. -/
def sampleProject : FileSystem where
  root := .folder
    [(Path.ofString "fmtcheck.toml", .file (Path.ofString "tab_size = 2\n")),
      (Path.ofString "c.cs", .file (Path.ofString "a\n\tb\n")),
      (Path.ofString "a.cs", .file (Path.ofString "\ta long line\n")),
      (Path.ofString "b.cs", .file (Path.ofString "  b\n"))]
  current := []

theorem wellFormed_sampleProject : sampleProject.root.WellFormed :=
  ⟨by decide, by decide, trivial, by decide, trivial, by decide, trivial, by decide, trivial,
    trivial⟩

theorem discover_sampleProject :
    sampleProject.discover Settings.defaultExtensions (Path.ofString ".") =
      [Path.ofString "./a.cs", Path.ofString "./b.cs", Path.ofString "./c.cs"] := by
  have hnode : sampleProject.node? (Path.ofString ".") = .ok sampleProject.root := rfl
  have hsources : sampleProject.root.sources (·.hasExtension Settings.defaultExtensions)
      (Path.ofString ".") =
      [[Path.ofString "c.cs"], [Path.ofString "a.cs"], [Path.ofString "b.cs"]] := rfl
  have hsort : Location.sort
      [[Path.ofString "c.cs"], [Path.ofString "a.cs"], [Path.ofString "b.cs"]] =
      [[Path.ofString "a.cs"], [Path.ofString "b.cs"], [Path.ofString "c.cs"]] := by cbv
  rw [FileSystem.discover_folder hnode]
  exact (congrArg (List.map _) ((congrArg Location.sort hsources).trans hsort)).trans rfl

/-- Two of the files of the sample have a tab. The check for tabs exits with 1 and tells the one in
the short file; the other file is left out for its length. -/
theorem exit_status_of_sampleProject :
    let arguments :=
      ["check", "--rule", "tabs", "--max-file-size=9", "--format", "json"].map Argument.ofString
    let a : CheckArguments :=
      { rules := ["tabs"], maxFileSize := some 9, format := some .json }
    let t : TabSize := ⟨2, by decide⟩
    let s : Settings := { Settings.default with tabSize := t }
    let told : Failure := ⟨Path.ofString "./c.cs", .fault (.tabCharacter 2)⟩
    let long : Failure := ⟨Path.ofString "./a.cs", .fault (.tabCharacter 1)⟩
    (Survey.Host.IsComplete {} ∧ sampleProject.root.WellFormed ∧
      Invocation.ofArguments arguments = .check a ∧ a.output = none ∧
      settings sampleProject a.config = .ok s ∧ a.IsValid) ∧
    (run noTexts {} sampleProject arguments).code = 1 ∧
    (run noTexts {} sampleProject arguments).errors = [] ∧
    (Survey.IsSkipped sampleProject a.maxFileSize long.path ∧
      sampleProject.check t .tabs long.path = some long) ∧
    ∃ findings, (run noTexts {} sampleProject arguments).stdout = Report.bytes .json findings ∧
      ∀ r f, (∃ i, ⟨i, r, f⟩ ∈ findings) ↔ r = .tabs ∧ f = told := by
  intro arguments a t s told long
  have hh := Survey.Host.isComplete_default
  have hargs : Invocation.ofArguments arguments = .check a := by decide
  have hs : settings sampleProject a.config = .ok s := rfl
  have hvalid : a.IsValid :=
    ⟨by decide, List.forall_mem_singleton.mpr ⟨.tabs, rfl⟩, fun _ h => by cases h⟩
  obtain ⟨t', ht, hzero, -, hone, herrors, findings, hstdout, hmem, -⟩ :=
    exit_status_tells_failures noTexts hh wellFormed_sampleProject hargs rfl hs hvalid
  obtain rfl : t' = t := by
    cases t'
    cases ht
    rfl
  have hshort : ¬ Survey.IsSkipped sampleProject a.maxFileSize told.path := by decide
  have hlong : Survey.IsSkipped sampleProject a.maxFileSize long.path := by decide
  have htold : sampleProject.check t .tabs told.path = some told := by decide
  have hpass : sampleProject.check t .tabs (Path.ofString "./b.cs") = none := by decide
  have hchecked : IsChecked sampleProject a s told.path := by
    refine ⟨?_, hshort⟩
    rw [show input a = Path.ofString "." from rfl, show s.extensions = Settings.defaultExtensions
      from rfl, discover_sampleProject]
    decide
  have hfails : (run noTexts {} sampleProject arguments).code ≠ 0 := by
    intro h
    have hnone := hzero.mp h _ hchecked .tabs (by decide)
    rw [htold] at hnone
    cases hnone
  refine ⟨⟨hh, wellFormed_sampleProject, hargs, rfl, hs, hvalid⟩, hone hfails, herrors,
    ⟨hlong, by decide⟩, findings, hstdout, fun r f => ?_⟩
  rw [hmem r f]
  constructor
  · rintro ⟨⟨hfound, hskip⟩, hr, hcheck⟩
    obtain rfl : r = .tabs := List.mem_singleton.mp hr
    refine ⟨rfl, ?_⟩
    have hpath : f.path ∈ [long.path, Path.ofString "./b.cs", told.path] :=
      discover_sampleProject ▸ hfound
    simp only [List.mem_cons, List.not_mem_nil, or_false] at hpath
    obtain hpath | hpath | hpath := hpath
    · exact absurd (hpath ▸ hlong) hskip
    · rw [hpath, hpass] at hcheck
      cases hcheck
    · rw [hpath, htold] at hcheck
      exact (Option.some.inj hcheck).symm
  · rintro ⟨rfl, rfl⟩
    exact ⟨hchecked, List.mem_singleton_self _, htold⟩

end Command

end TextHygiene
