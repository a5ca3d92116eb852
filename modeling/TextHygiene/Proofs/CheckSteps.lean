import TextHygiene.Proofs.LoadedSettings
import TextHygiene.Proofs.ReportedCheck

/-! The steps of a check before it looks at any file: the settings, the values of the flags, and the
file for the report. The first step that fails ends the run, with its own messages and with nothing
written; after them a check has a tab size, and no further error is possible. -/

namespace TextHygiene.Command

inductive Step
  | settings
  | tabSize
  | rules
  | threads
  | output
deriving DecidableEq

/-- The place of a step in the order in which the steps are taken. -/
def Step.rank : Step → Nat
  | settings => 0
  | tabSize => 1
  | rules => 2
  | threads => 3
  | output => 4

theorem Step.rank_injective {s s' : Step} (h : s.rank = s'.rank) : s = s' := by
  cases s <;> cases s' <;> first | rfl | cases h

/-- The options of a check with these settings, tab size, rules and threads. -/
def CheckArguments.resolve (a : CheckArguments) (s : Settings) (tabSize : Nat) (rules : List Rule)
    (threads : Option Nat) : Options where
  tabSize := tabSize
  rules := rules
  extensions := s.extensions
  maxFileSize := a.maxFileSize
  engine := a.engine.getD .perRule
  format := a.format.getD .text
  threads := threads

/-- Where a check reads its settings: at the path that is named, or else at the default path if
there is a file. -/
def settingsPath? (fs : FileSystem) (a : CheckArguments) : Option Path :=
  match a.config with
  | some p => some p
  | none => if fs.isFile defaultSettingsPath then some defaultSettingsPath else none

/-- A step fails with an error. -/
inductive Fails (fs : FileSystem) (a : CheckArguments) : Step → StepError → Prop
  | settings {p : Path} {why : SettingsError} (read : settingsPath? fs a = some p)
    (refused : fs.LoadFails p why) : Fails fs a .settings (.settings why)
  | tabSize (zero : a.tabSize = some 0) : Fails fs a .tabSize .zeroTabSize
  | rules {known rest : List String} {n : String} (listed : a.rules = known ++ n :: rest)
    (named : ∀ m ∈ known, ∃ r : Rule, r.name = m) (unknown : ∀ r : Rule, r.name ≠ n) :
    Fails fs a .rules (.unknownRule (.unknownRule n))
  | zeroThreads {value : String} (given : a.threads = some value) (counted : ¬ IsAuto value)
    (zero : Decimal.IsWord value.toList 0) : Fails fs a .threads .zeroThreads
  | threadsNumeral {value : String} {why : Decimal.NumeralError} (given : a.threads = some value)
    (counted : ¬ IsAuto value) (refused : Decimal.word value.toList = .error why) :
    Fails fs a .threads (.threadsNumeral value why)
  | output {p : Path} {why : IoError} (given : a.output = some p)
    (refused : fs.target p = .error why) : Fails fs a .output (.output why)

section

variable {fs : FileSystem} {a : CheckArguments} {e : StepError}

/-! ## One step -/

theorem fails_settings_iff :
    Fails fs a .settings e ↔ (settings fs a.config).mapError .settings = .error e := by
  have hmap : (settings fs a.config).mapError .settings = .error e ↔
      ∃ why, settings fs a.config = .error why ∧ StepError.settings why = e := by
    cases settings fs a.config <;> simp [Except.mapError]
  have hread : ∀ why, settings fs a.config = .error why ↔
      ∃ p, settingsPath? fs a = some p ∧ fs.loadSettings p = .error why := by
    intro why
    cases hc : a.config with
    | some p => simp [settings, settingsPath?, hc]
    | none =>
      by_cases hfile : fs.isFile defaultSettingsPath <;>
        simp [settings, settingsPath?, hc, hfile]
  rw [hmap]
  constructor
  · intro h
    cases h with
    | settings read refused => exact ⟨_, (hread _).mpr ⟨_, read, FileSystem.loadFails_iff.mp refused⟩, rfl⟩
  · rintro ⟨why, hwhy, rfl⟩
    obtain ⟨p, hp, hload⟩ := (hread why).mp hwhy
    exact .settings hp (FileSystem.loadFails_iff.mpr hload)

theorem fails_tabSize_iff (s : Settings) :
    Fails fs a .tabSize e ↔ tabSize s a.tabSize = .error e := by
  constructor
  · intro h
    cases h with
    | tabSize zero =>
      rw [zero]
      rfl
  · intro h
    cases ht : a.tabSize with
    | none => rw [ht] at h; cases h
    | some n =>
      cases n with
      | zero =>
        rw [ht] at h
        obtain rfl := Except.error.inj h
        exact .tabSize ht
      | succ n => rw [ht] at h; cases h

theorem tabSize_pos {s : Settings} {n? : Option Nat} {t : Nat} (h : tabSize s n? = .ok t) :
    0 < t := by
  cases n? with
  | none =>
    obtain rfl := Except.ok.inj h
    exact s.tabSize.width_pos
  | some n =>
    cases n with
    | zero => cases h
    | succ n =>
      obtain rfl := Except.ok.inj h
      exact Nat.succ_pos n

theorem fails_rules_iff (s : Settings) : Fails fs a .rules e ↔ rules s a.rules = .error e := by
  have hmap : rules s a.rules = .error e ↔
      ∃ why, Rule.ofNames a.rules = .error why ∧ StepError.unknownRule why = e := by
    cases hr : a.rules with
    | nil => simp [rules, Rule.ofNames]
    | cons n rest =>
      rw [rules]
      · cases Rule.ofNames (n :: rest) <;> simp [Except.mapError]
      · exact List.cons_ne_nil n rest
  rw [hmap]
  constructor
  · intro h
    cases h with
    | rules listed named unknown =>
      exact ⟨_, Rule.ofNames_eq_error_iff.mpr ⟨_, _, _, listed, named, unknown, rfl⟩, rfl⟩
  · rintro ⟨why, hwhy, rfl⟩
    obtain ⟨known, n, rest, listed, named, unknown, rfl⟩ := Rule.ofNames_eq_error_iff.mp hwhy
    exact .rules listed named unknown

theorem fails_threads_iff :
    Fails fs a .threads e ↔ threads (a.threads.getD "auto") = .error e := by
  have hgetD : threads (a.threads.getD "auto") = .error e ↔
      ∃ value, a.threads = some value ∧ threads value = .error e := by
    have hauto : IsAuto "auto" := rfl
    cases a.threads with
    | none => simp [threads_of_isAuto hauto]
    | some value => simp
  rw [hgetD]
  constructor
  · intro h
    cases h with
    | zeroThreads given counted zero =>
      exact ⟨_, given, threads_eq_error_iff.mpr ⟨counted, .inl ⟨zero, rfl⟩⟩⟩
    | threadsNumeral given counted refused =>
      exact ⟨_, given, threads_eq_error_iff.mpr ⟨counted, .inr ⟨_, refused, rfl⟩⟩⟩
  · rintro ⟨value, given, h⟩
    obtain ⟨counted, ⟨zero, rfl⟩ | ⟨why, refused, rfl⟩⟩ := threads_eq_error_iff.mp h
    · exact .zeroThreads given counted zero
    · exact .threadsNumeral given counted refused

/-- The threads are refused when they are given and are no thread count. -/
theorem exists_fails_threads_iff : (∃ e, Fails fs a .threads e) ↔
    ∃ value, a.threads = some value ∧ ¬ IsThreadCount value := by
  simp only [fails_threads_iff, exists_threads_eq_error_iff]
  cases a.threads with
  | none => simp [IsThreadCount, IsAuto]
  | some value => simp

/-- A step fails in one way. -/
theorem Fails.unique {step : Step} {e' : StepError} (h : Fails fs a step e)
    (h' : Fails fs a step e') : e = e' := by
  cases step with
  | settings =>
    rw [fails_settings_iff] at h h'
    exact Except.error.inj (h.symm.trans h')
  | tabSize =>
    rw [fails_tabSize_iff .default] at h h'
    exact Except.error.inj (h.symm.trans h')
  | rules =>
    rw [fails_rules_iff .default] at h h'
    exact Except.error.inj (h.symm.trans h')
  | threads =>
    rw [fails_threads_iff] at h h'
    exact Except.error.inj (h.symm.trans h')
  | output =>
    cases h with
    | output given refused =>
      cases h' with
      | output given' refused' =>
        obtain rfl := Option.some.inj (given.symm.trans given')
        rw [Except.error.inj (refused.symm.trans refused')]

/-! ## The first step that fails -/

/-- No step before a place in the order fails. -/
def IsClear (fs : FileSystem) (a : CheckArguments) (rank : Nat) : Prop :=
  ∀ step : Step, step.rank < rank → ∀ e, ¬ Fails fs a step e

/-- The first step that fails ends in the error `e`. -/
def FirstFailure (fs : FileSystem) (a : CheckArguments) (e : StepError) : Prop :=
  ∃ step, Fails fs a step e ∧ IsClear fs a step.rank

theorem IsClear.next {step : Step} (h : IsClear fs a step.rank)
    (hstep : ∀ e, ¬ Fails fs a step e) : IsClear fs a (step.rank + 1) := by
  intro earlier hlt e
  by_cases heq : earlier.rank = step.rank
  · rw [Step.rank_injective heq]
    exact hstep e
  · exact h earlier (by omega) e

/-- Once the steps before it are clear, only the last step can fail. -/
theorem IsClear.eq_output {step : Step} (h : IsClear fs a Step.output.rank)
    (hstep : Fails fs a step e) : step = .output := by
  by_contra hne
  have hlt : step.rank < Step.output.rank := by
    cases step <;> first | decide | exact absurd rfl hne
  exact h step hlt e hstep

theorem FirstFailure.unique {e' : StepError} (h : FirstFailure fs a e)
    (h' : FirstFailure fs a e') : e = e' := by
  obtain ⟨step, hstep, hclear⟩ := h
  obtain ⟨step', hstep', hclear'⟩ := h'
  rcases Nat.lt_trichotomy step.rank step'.rank with hlt | heq | hgt
  · exact absurd hstep (hclear' step hlt e)
  · rw [Step.rank_injective heq] at hstep
    exact hstep.unique hstep'
  · exact absurd hstep' (hclear step' hgt e')

/-- The options are refused by the first step that fails, or no step before the last one does. -/
theorem options_cases (fs : FileSystem) (a : CheckArguments) :
    (∃ e, options fs a = .error e ∧ FirstFailure fs a e) ∨
      ∃ o, options fs a = .ok o ∧ 0 < o.tabSize ∧ IsClear fs a Step.output.rank := by
  have hclear : IsClear fs a Step.settings.rank := fun _ hlt => absurd hlt (Nat.not_lt_zero _)
  simp only [options, bind, Except.bind]
  cases hs : (settings fs a.config).mapError StepError.settings with
  | error e => exact .inl ⟨e, rfl, .settings, fails_settings_iff.mpr hs, hclear⟩
  | ok s =>
    have hclear : IsClear fs a Step.tabSize.rank := hclear.next fun e hfails => by
      rw [fails_settings_iff, hs] at hfails
      cases hfails
    cases ht : tabSize s a.tabSize with
    | error e => exact .inl ⟨e, by simp only [ht], .tabSize, (fails_tabSize_iff s).mpr ht, hclear⟩
    | ok t =>
      have hclear : IsClear fs a Step.rules.rank := hclear.next fun e hfails => by
        rw [fails_tabSize_iff s, ht] at hfails
        cases hfails
      cases hr : rules s a.rules with
      | error e =>
        exact .inl ⟨e, by simp only [ht, hr], .rules, (fails_rules_iff s).mpr hr, hclear⟩
      | ok rs =>
        have hclear : IsClear fs a Step.threads.rank := hclear.next fun e hfails => by
          rw [fails_rules_iff s, hr] at hfails
          cases hfails
        cases hn : threads (a.threads.getD "auto") with
        | error e =>
          exact .inl ⟨e, by simp only [ht, hr], .threads, fails_threads_iff.mpr hn, hclear⟩
        | ok n =>
          have hclear : IsClear fs a Step.output.rank := hclear.next fun e hfails => by
            rw [fails_threads_iff, hn] at hfails
            cases hfails
          refine .inr ⟨a.resolve s t rs n, ?_, tabSize_pos ht, hclear⟩
          simp only [ht, hr]
          rfl

theorem firstFailure_of_fails {step : Step} (h : Fails fs a step e) :
    ∃ e', FirstFailure fs a e' := by
  obtain ⟨e', -, hfirst⟩ | ⟨o, -, -, hclear⟩ := options_cases fs a
  · exact ⟨e', hfirst⟩
  · obtain rfl := hclear.eq_output h
    exact ⟨e, .output, h, hclear⟩

/-! ## The run of a check -/

variable {texts : Texts} {host : Survey.Host}

/-- The outcome of a run that a step ends. -/
def refused (texts : Texts) (fs : FileSystem) (e : StepError) : Outcome :=
  { code := 1, errors := e.chain texts, files := fs }

theorem check_eq_refused (h : FirstFailure fs a e) :
    check texts host fs a = refused texts fs e := by
  obtain ⟨e', hoptions, hfirst⟩ | ⟨o, hoptions, -, hclear⟩ := options_cases fs a
  · rw [check, hoptions, hfirst.unique h, refused]
  · obtain ⟨step, hfails, -⟩ := h
    obtain rfl := hclear.eq_output hfails
    cases hfails with
    | output given hrefused =>
      rw [check, hoptions, given]
      exact checkToFile_of_target_eq_error hrefused

theorem errors_check_of_no_failure (hh : host.IsComplete) (h : ∀ step e, ¬ Fails fs a step e) :
    (check texts host fs a).errors = [] := by
  obtain ⟨e, -, step, hfails, -⟩ | ⟨o, hoptions, hpos, -⟩ := options_cases fs a
  · exact absurd hfails (h step e)
  · have ht : o.tabSize = (TabSize.mk o.tabSize hpos).width := rfl
    rw [check, hoptions]
    cases hout : a.output with
    | none => simp only [checkToStdout_eq hh ht]
    | some p =>
      cases htarget : fs.target p with
      | error why => exact absurd (.output hout htarget) (h .output (.output why))
      | ok loc => simp only [checkToFile_of_target_eq_ok hh ht htarget]

/-- Where the options of a check are accepted, they have a tab size. -/
theorem exists_tabSize_of_options {o : Options} (ho : options fs a = .ok o) :
    ∃ t : TabSize, o.tabSize = t.width := by
  obtain ⟨e, herror, -⟩ | ⟨o', ho', hpos, -⟩ := options_cases fs a
  · cases ho.symm.trans herror
  · obtain rfl := Except.ok.inj (ho.symm.trans ho')
    exact ⟨⟨o.tabSize, hpos⟩, rfl⟩

theorem survey_ne_zeroTabSize (hh : host.IsComplete) {o : Options} (ho : options fs a = .ok o)
    (fs' : FileSystem) (paths : List Path) : fs'.survey host o paths ≠ .error .zeroTabSize := by
  obtain ⟨t, ht⟩ := exists_tabSize_of_options ho
  rw [Survey.survey_eq_reference hh fs' ht paths]
  exact fun h => by cases h

end

theorem StepError.chain_ne_nil (texts : Texts) (e : StepError) : e.chain texts ≠ [] := by
  cases e <;> exact List.cons_ne_nil _ _

/-- A check ends in an error exactly when one of the steps before it fails. The error is that of the
first such step; nothing is printed then, and the files are as they were. Settings do not load where
there is no file or it cannot be read, where it is no text or no document, and where the document
gives a tab size of 0 or the name of no rule. Threads are refused when they are neither left to the
host nor a numeral of 1 or more, and a check that is carried out has a tab size. -/
theorem first_failing_step_ends_check (texts : Texts) {host : Survey.Host} (hh : host.IsComplete)
    (fs : FileSystem) {arguments : List Argument} {a : CheckArguments}
    (hargs : Invocation.ofArguments arguments = .check a) :
    ((run texts host fs arguments).errors ≠ [] ↔ ∃ step e, Fails fs a step e) ∧
    ((∃ step e, Fails fs a step e) → ∃ e, FirstFailure fs a e) ∧
    (∀ e, FirstFailure fs a e →
      (run texts host fs arguments).errors = e.chain texts ∧
        (run texts host fs arguments).code = 1 ∧
        (run texts host fs arguments).stdout = [] ∧ (run texts host fs arguments).files = fs) ∧
    (∀ p e, fs.LoadFails p e ↔ fs.loadSettings p = .error e) ∧
    ((∃ e, Fails fs a .threads e) ↔ ∃ value, a.threads = some value ∧ ¬ IsThreadCount value) ∧
    ∀ o, options fs a = .ok o → ∀ (fs' : FileSystem) (paths : List Path),
      fs'.survey host o paths ≠ .error .zeroTabSize := by
  have hrun : run texts host fs arguments = check texts host fs a := by rw [run, hargs]
  have hfirst : (∃ step e, Fails fs a step e) → ∃ e, FirstFailure fs a e := by
    rintro ⟨step, e, hfails⟩
    exact firstFailure_of_fails hfails
  rw [hrun]
  refine ⟨⟨fun herrors => ?_, fun hfails => ?_⟩, hfirst, fun e he => ?_,
    fun p e => FileSystem.loadFails_iff, exists_fails_threads_iff,
    fun o ho => survey_ne_zeroTabSize hh ho⟩
  · by_contra hnone
    exact herrors (errors_check_of_no_failure hh fun step e h => hnone ⟨step, e, h⟩)
  · obtain ⟨e, he⟩ := hfirst hfails
    rw [check_eq_refused he]
    exact e.chain_ne_nil texts
  · rw [check_eq_refused he]
    exact ⟨rfl, rfl, rfl, rfl⟩

/-- Empty texts, for runs that show none of them. -/
def noTexts : Texts := ⟨fun _ => "", fun _ => ""⟩

/-- A folder with settings for a tab size of 2, settings for one of 0, and settings that may not be
read. -/
def settingsFolder : FileSystem where
  root := .folder
    [(Path.ofString "two", .file (Path.ofString "tab_size = 2\n")),
      (Path.ofString "zero", .file (Path.ofString "tab_size = 0\n")),
      (Path.ofString "locked", .file (Path.ofString "tab_size = 2\n"))]
  current := []
  disk loc :=
    if loc = [Path.ofString "locked"] then { readRefusal := some .permissionDenied } else {}

/-- Three steps fail after settings that load, and the first of them, an unknown rule behind a known
one, is the one that is told. With other settings it is told why these do not load. -/
theorem first_of_three_failing_steps :
    let flags := ["--output", "no/report", "--threads", "+00", "--rule", "tabs", "--rule", "spaces"]
    let arguments (config : String) :=
      (["check", "--config", config] ++ flags).map Argument.ofString
    let a (config : String) : CheckArguments :=
      { config := some (Path.ofString config), output := some (Path.ofString "no/report"),
        threads := some "+00", rules := ["tabs", "spaces"] }
    (Survey.Host.IsComplete {} ∧
      (∀ config ∈ ["two", "zero", "locked"],
        Invocation.ofArguments (arguments config) = .check (a config)) ∧
      settings settingsFolder (a "two").config =
        .ok { Settings.default with tabSize := ⟨2, by decide⟩ } ∧
      FirstFailure settingsFolder (a "two") (.unknownRule (.unknownRule "spaces")) ∧
      FirstFailure settingsFolder (a "zero") (.settings .zeroTabSize) ∧
      FirstFailure settingsFolder (a "locked")
        (.settings (.unreadable (Path.ofString "locked") DiskError.permissionDenied.toIoError))) ∧
    (run noTexts {} settingsFolder (arguments "two")).errors =
      ["invalid --rule", "unknown rule 'spaces'"] ∧
    (run noTexts {} settingsFolder (arguments "two")).files = settingsFolder ∧
    (run noTexts {} settingsFolder (arguments "zero")).errors =
      ["load config", "tab_size must be at least 1"] ∧
    (run noTexts {} settingsFolder (arguments "locked")).errors =
      ["load config", "failed to read config file 'locked'",
        "Permission denied (os error 13)"] := by
  intro flags arguments a
  have hh := Survey.Host.isComplete_default
  have hargs : ∀ config ∈ ["two", "zero", "locked"],
      Invocation.ofArguments (arguments config) = .check (a config) := by decide
  have hsettings : settings settingsFolder (a "two").config =
      .ok { Settings.default with tabSize := ⟨2, by decide⟩ } := rfl
  have hfirst : ∀ config e, options settingsFolder (a config) = .error e →
      FirstFailure settingsFolder (a config) e := by
    intro config e hoptions
    obtain ⟨e', herror, hfirst⟩ | ⟨o, ho, -⟩ := options_cases settingsFolder (a config)
    · rwa [Except.error.inj (hoptions.symm.trans herror)]
    · cases hoptions.symm.trans ho
  have hchain : ∀ config ∈ ["two", "zero", "locked"], ∀ e,
      FirstFailure settingsFolder (a config) e →
      (run noTexts {} settingsFolder (arguments config)).errors = e.chain noTexts ∧
        (run noTexts {} settingsFolder (arguments config)).files = settingsFolder := by
    intro config hconfig e he
    obtain ⟨-, -, houtcome, -⟩ :=
      first_failing_step_ends_check noTexts hh settingsFolder (hargs config hconfig)
    obtain ⟨herrors, -, -, hfiles⟩ := houtcome e he
    exact ⟨herrors, hfiles⟩
  have htwo := hfirst "two" _ rfl
  have hzero := hfirst "zero" _ rfl
  have hlocked := hfirst "locked" _ rfl
  obtain ⟨htwoErrors, htwoFiles⟩ := hchain "two" (by decide) _ htwo
  exact ⟨⟨hh, hargs, hsettings, htwo, hzero, hlocked⟩, htwoErrors, htwoFiles,
    (hchain "zero" (by decide) _ hzero).1, (hchain "locked" (by decide) _ hlocked).1⟩

end TextHygiene.Command
