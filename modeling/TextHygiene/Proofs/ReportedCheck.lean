import TextHygiene.Command.Run
import TextHygiene.Proofs.SurveyAgreement
import TextHygiene.Proofs.Utf8RoundTrip

/-! A check that is carried out to its end. A sink without a bound takes a whole report, so that the
check leaves behind the report on the files that it finds, and its exit code counts their
failures. -/

namespace TextHygiene

theorem Utf8.flatten_map_encode (pieces : List (List Char)) :
    (pieces.map encode).flatten = encode pieces.flatten := by
  induction pieces with
  | nil => rfl
  | cons piece rest ih =>
    rw [List.map_cons, List.flatten_cons, ih, List.flatten_cons, encode_append]

namespace Sink

theorem write_of_room_eq_none {s : Sink} (h : s.room = none) (bs : Bytes) :
    s.write bs = .ok { s with chunks := bs :: s.chunks } := by
  rw [write, h]

/-- A sink without a bound takes everything. -/
theorem exists_writeAll_eq_ok {s : Sink} (h : s.room = none) (pieces : List Bytes) :
    ∃ s', s.writeAll pieces = .ok s' ∧ s'.written = s.written ++ pieces.flatten := by
  induction pieces generalizing s with
  | nil => exact ⟨s, rfl, by simp⟩
  | cons bs rest ih =>
    have hwrite := write_of_room_eq_none h bs
    obtain ⟨s', hrest, hwritten⟩ := ih (s := { s with chunks := bs :: s.chunks }) h
    refine ⟨s', ?_, ?_⟩
    · rw [writeAll, hwrite]
      exact hrest
    · rw [hwritten, written_write_ok hwrite, List.flatten_cons, List.append_assoc]

theorem exists_report_eq_ok {s : Sink} (h : s.room = none) (format : Format)
    (findings : List Finding) : ∃ s', s.report format findings = .ok s' ∧
      s'.written = s.written ++ Report.bytes format findings := by
  obtain ⟨s', hreport, hwritten⟩ :=
    exists_writeAll_eq_ok h ((Report.pieces format findings).map Utf8.encode)
  exact ⟨s', hreport, by rw [hwritten, Utf8.flatten_map_encode, Report.bytes, Report.text]⟩

end Sink

namespace Command

section

variable {texts : Texts} {host : Survey.Host} {fs : FileSystem} {arguments : List Argument}
  {a : CheckArguments} {o : Options} (hargs : Invocation.ofArguments arguments = .check a)
  (ho : options fs a = .ok o)
include hargs ho

theorem run_eq_checkToStdout (hout : a.output = none) :
    run texts host fs arguments = checkToStdout host fs o (input a) := by
  rw [run, hargs]
  simp only [check, ho, hout]

theorem run_eq_checkToFile {output : Path} (hout : a.output = some output) :
    run texts host fs arguments = checkToFile host fs o (input a) output := by
  rw [run, hargs]
  simp only [check, ho, hout]

end

/-- What a check reports: the survey of the files that it finds. -/
def found (fs : FileSystem) (t : TabSize) (o : Options) (input : Path) : Survey :=
  Survey.reference fs t o (fs.discover o.extensions input)

variable {host : Survey.Host} {fs : FileSystem} {t : TabSize} {o : Options} {input : Path}

theorem surveyInto_eq (hh : host.IsComplete) (ht : o.tabSize = t.width) (fs : FileSystem)
    (input : Path) :
    ∃ s, fs.surveyInto host o input {} = (.ok (found fs t o input).tally, s) ∧
      s.written = Report.bytes o.format (found fs t o input).findings := by
  obtain ⟨s, hreport, hwritten⟩ :=
    Sink.exists_report_eq_ok (s := {}) rfl o.format (found fs t o input).findings
  refine ⟨s, ?_, hwritten⟩
  simp only [FileSystem.surveyInto, Survey.survey_eq_reference hh fs ht]
  rw [← found, hreport]

theorem checkToStdout_eq (hh : host.IsComplete) (ht : o.tabSize = t.width) :
    checkToStdout host fs o input =
      { code := exitCode (found fs t o input).tally
        stdout := Report.bytes o.format (found fs t o input).findings
        files := fs } := by
  obtain ⟨s, hsurvey, hwritten⟩ := surveyInto_eq hh ht fs input
  rw [checkToStdout, hsurvey, ← hwritten]

theorem checkToFile_of_target_eq_error {output : Path} {e : IoError}
    (h : fs.target output = .error e) :
    checkToFile host fs o input output =
      { code := 1, errors := outputChain e, files := fs } := by
  rw [checkToFile, h]

/-- The file is emptied first, so that the check sees it empty. -/
theorem checkToFile_of_target_eq_ok (hh : host.IsComplete) (ht : o.tabSize = t.width)
    {output : Path} {loc : Location} (h : fs.target output = .ok loc) :
    checkToFile host fs o input output =
      { code := exitCode (found (fs.putFile loc []) t o input).tally
        files := (fs.putFile loc []).putFile loc
          (Report.bytes o.format (found (fs.putFile loc []) t o input).findings) } := by
  obtain ⟨s, hsurvey, hwritten⟩ := surveyInto_eq hh ht (fs.putFile loc []) input
  rw [checkToFile, h]
  simp only [hsurvey, hwritten]

end Command

end TextHygiene
