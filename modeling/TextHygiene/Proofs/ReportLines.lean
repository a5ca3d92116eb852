import TextHygiene.Proofs.Messages

/-! The lines of a text report. Each message is ended by a line feed, so that the report has one line
for each failure as long as no path has a line feed in it; a path that has one breaks its message into
several lines. -/

namespace TextHygiene

namespace Report

/-- Each message stands on a line of its own, in order, and nothing follows the last of them. -/
def HasOneLinePerFailure (report : Bytes) (fs : List Finding) : Prop :=
  report.lines = fs.map (·.failure.bytes) ++ [[]]

/-- The lines of a text report, read as texts. -/
def readLines (report : Bytes) : List (Option (List Char)) :=
  report.lines.dropLast.map Utf8.decode?

theorem bytes_text_cons (f : Finding) (rest : List Finding) :
    bytes .text (f :: rest) = f.failure.bytes ++ Byte.lineFeed :: bytes .text rest := by
  have hlast : Utf8.encode ['\n'] = [Byte.lineFeed] := by decide
  rw [bytes, text, pieces, List.map_cons, List.flatten_cons, line, Utf8.encode,
    List.flatMap_append, List.flatMap_append, ← Utf8.encode, ← Utf8.encode, ← Utf8.encode, hlast,
    List.append_assoc, List.singleton_append]
  rfl

theorem bytes_text (fs : List Finding) :
    bytes .text fs = Bytes.ofLines (fs.map (·.failure.bytes)) := by
  induction fs with
  | nil => rfl
  | cons f rest ih => rw [bytes_text_cons, ih, List.map_cons, Bytes.ofLines_cons]

theorem lines_bytes_text (fs : List Finding) :
    (bytes .text fs).lines = fs.flatMap (·.failure.bytes.lines) ++ [[]] := by
  rw [bytes_text, Bytes.lines_ofLines_eq_flatMap, List.flatMap_map]

theorem readLines_eq {report : Bytes} {fs : List Finding} (h : HasOneLinePerFailure report fs) :
    readLines report = fs.map fun f => some f.failure.message.toList := by
  rw [readLines, h, List.dropLast_concat, List.map_map]
  refine List.map_congr_left fun f _ => ?_
  rw [Function.comp_apply, Utf8.decode?_eq_some_iff, Failure.bytes]

section

variable {fs : List Finding} (h : ∀ f ∈ fs, IsOneLine f.failure.cause.describe)
include h

theorem lineFeed_notMem_bytes_iff {f : Finding} (hf : f ∈ fs) :
    Byte.lineFeed ∉ f.failure.bytes ↔ Byte.lineFeed ∉ f.failure.path := by
  rw [← List.count_eq_zero, ← List.count_eq_zero, ← Bytes.lineFeeds, ← Bytes.lineFeeds,
    Failure.lineFeeds_bytes (h f hf)]

theorem hasOneLinePerFailure_iff :
    HasOneLinePerFailure (bytes .text fs) fs ↔ ∀ f ∈ fs, Byte.lineFeed ∉ f.failure.path := by
  constructor
  · intro hlines f hf
    rw [← lineFeed_notMem_bytes_iff h hf]
    have hmem : f.failure.bytes ∈ (bytes .text fs).lines := by
      rw [hlines]
      exact List.mem_append_left _ (List.mem_map_of_mem hf)
    exact Bytes.notMem_of_mem_split hmem
  · intro hpaths
    rw [HasOneLinePerFailure, bytes_text]
    refine Bytes.lines_ofLines (List.forall_mem_map.mpr fun f hf => ?_)
    exact (lineFeed_notMem_bytes_iff h hf).mpr (hpaths f hf)

/-- The lines of a report are one for each failure and one for each line feed in a path, besides the
empty rest after the last line. -/
theorem length_lines_bytes_text :
    (bytes .text fs).lines.length =
      fs.length + (fs.map fun f => Bytes.lineFeeds f.failure.path).sum + 1 := by
  induction fs with
  | nil => rfl
  | cons f rest ih =>
    obtain ⟨hf, hrest⟩ := List.forall_mem_cons.mp h
    have ih := ih hrest
    rw [Bytes.length_lines] at ih ⊢
    rw [bytes_text_cons, Bytes.lineFeeds_append, Failure.lineFeeds_bytes hf]
    simp only [Bytes.lineFeeds, List.count_cons_self, List.length_cons, List.map_cons,
      List.sum_cons] at ih ⊢
    omega

end

end Report

namespace FileSystem

theorem isOneLine_of_mem_found {fs : FileSystem} {t : TabSize} {o : Options} {input : Path} :
    ∀ f ∈ (Command.found fs t o input).findings, IsOneLine f.failure.cause.describe := by
  intro f hf
  exact isOneLine_of_check (Survey.check_of_mem_reference hf).2

/-- The text report of a check gives the lines of one message after the other, each message ended by
a line feed; every line feed in a path makes one line more. So each message stands on a line of its
own, and the messages can be read off the report, exactly when no path of a failure has a line
feed in it. -/
theorem text_report_is_one_line_per_failure_iff {host : Survey.Host} (hh : host.IsComplete)
    {t : TabSize} {o : Options} (ht : o.tabSize = t.width) (htext : o.format = .text)
    (fs : FileSystem) (input : Path) :
    ∃ survey s, fs.survey host o (fs.discover o.extensions input) = .ok survey ∧
      fs.surveyInto host o input {} = (.ok survey.tally, s) ∧
      survey.tally.failures = survey.findings.length ∧
      s.written.lines = survey.findings.flatMap (·.failure.bytes.lines) ++ [[]] ∧
      s.written.lines.length = survey.tally.failures +
        (survey.findings.map fun f => Bytes.lineFeeds f.failure.path).sum + 1 ∧
      (Report.HasOneLinePerFailure s.written survey.findings ↔
        ∀ f ∈ survey.findings, Byte.lineFeed ∉ f.failure.path) ∧
      (Report.HasOneLinePerFailure s.written survey.findings →
        Report.readLines s.written = survey.findings.map fun f => some f.failure.message.toList) := by
  obtain ⟨s, hsurvey, hwritten⟩ := Command.surveyInto_eq hh ht fs input
  rw [htext] at hwritten
  refine ⟨Command.found fs t o input, s, Survey.survey_eq_reference hh fs ht _, hsurvey, rfl, ?_⟩
  rw [hwritten]
  exact ⟨Report.lines_bytes_text _, Report.length_lines_bytes_text isOneLine_of_mem_found,
    Report.hasOneLinePerFailure_iff isOneLine_of_mem_found, Report.readLines_eq⟩

/-- A folder with one empty file. -/
def ofEmptyFile (name : Name) : FileSystem where
  root := .folder [(name, .file [])]
  current := []

/-- The one message on an empty file is got back from the report. -/
theorem message_on_an_empty_file :
    let fs := ofEmptyFile [0x61, 0x2E, 0x63, 0x73]
    (Survey.Host.IsComplete {} ∧ Options.default.tabSize = Settings.defaultTabSize.width ∧
      Options.default.format = .text) ∧
    ∃ tally s, fs.surveyInto {} .default [0x2E] {} = (.ok tally, s) ∧ tally.failures = 1 ∧
      Report.readLines s.written =
        [some "File './a.cs' must end with exactly one new line character (found 0)".toList] := by
  intro fs
  have hh := Survey.Host.isComplete_default
  have ht : Options.default.tabSize = Settings.defaultTabSize.width := rfl
  let path : Path := [0x2E, 0x2F, 0x61, 0x2E, 0x63, 0x73]
  have hfound : (Command.found fs Settings.defaultTabSize .default [0x2E]).findings =
      [⟨0, .finalNewline, ⟨path, .fault (.finalNewlineCount 0)⟩⟩] := by cbv
  obtain ⟨survey, s, hsurvey, hinto, hfailures, -, -, hlines, hread⟩ :=
    text_report_is_one_line_per_failure_iff hh ht rfl fs [0x2E]
  obtain rfl := Except.ok.inj ((Survey.survey_eq_reference hh fs ht _).symm.trans hsurvey)
  rw [← Command.found, hfound] at hfailures hlines hread
  have hpath : ∀ f ∈ [Finding.mk 0 .finalNewline ⟨path, .fault (.finalNewlineCount 0)⟩],
      Byte.lineFeed ∉ f.failure.path := by decide
  refine ⟨⟨hh, ht, rfl⟩, _, s, hinto, hfailures, ?_⟩
  rw [hread (hlines.mpr hpath)]
  decide

/-- It is not the case that every text report has one line for each failure: a name with a line feed
in it breaks its message. -/
theorem text_report_may_break_a_message :
    ¬ ∀ (host : Survey.Host) (t : TabSize) (o : Options), host.IsComplete → o.tabSize = t.width →
      o.format = .text → ∀ (fs : FileSystem) (input : Path), fs.root.WellFormed →
      ∃ survey s, fs.survey host o (fs.discover o.extensions input) = .ok survey ∧
        fs.surveyInto host o input {} = (.ok survey.tally, s) ∧
        Report.HasOneLinePerFailure s.written survey.findings := by
  intro h
  have hh := Survey.Host.isComplete_default
  have ht : Options.default.tabSize = Settings.defaultTabSize.width := rfl
  let fs := ofEmptyFile [0x61, 0x0A, 0x2E, 0x63, 0x73]
  have hfs : fs.root.WellFormed := ⟨by decide, by decide, trivial, trivial⟩
  let path : Path := [0x2E, 0x2F, 0x61, 0x0A, 0x2E, 0x63, 0x73]
  have hfound : (Command.found fs Settings.defaultTabSize .default [0x2E]).findings =
      [⟨0, .finalNewline, ⟨path, .fault (.finalNewlineCount 0)⟩⟩] := by cbv
  obtain ⟨survey, s, hsurvey, hinto, hlines⟩ := h {} _ _ hh ht rfl fs [0x2E] hfs
  obtain rfl := Except.ok.inj ((Survey.survey_eq_reference hh fs ht _).symm.trans hsurvey)
  obtain ⟨s', hinto', hwritten⟩ := Command.surveyInto_eq hh ht fs [0x2E]
  obtain rfl : s' = s := congrArg Prod.snd (hinto'.symm.trans hinto)
  rw [hwritten] at hlines
  have hpaths := (Report.hasOneLinePerFailure_iff isOneLine_of_mem_found).mp hlines
  rw [hfound] at hpaths
  exact hpaths _ (List.mem_singleton_self _) (by decide)

end FileSystem

end TextHygiene
