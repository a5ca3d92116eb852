import TextHygiene.Proofs.JsonPrefixes
import TextHygiene.Proofs.ReportReading
import TextHygiene.Proofs.ReportedCheck

/-! Reports that are too long for their sink. A sink with room for `n` bytes takes the first `n`
bytes of a report, in whichever piece they end, and then refuses with its error. A JSON report that
lacks more than its line feed is no document. -/

namespace TextHygiene

namespace Sink

/-- What comes of writing bytes into a sink with room for `n`. They are taken whole when they fit;
else the first `n` of them are taken, and the sink refuses with its error. -/
inductive Takes (s : Sink) (n : Nat) (bs : Bytes) : Except (IoError × Sink) Sink → Prop
  | whole {s' : Sink} (fits : bs.length ≤ n) (written : s'.written = s.written ++ bs)
    (room : s'.room = some (n - bs.length)) (error : s'.error = s.error) : Takes s n bs (.ok s')
  | front {full : Sink} (short : n < bs.length) (written : full.written = s.written ++ bs.take n) :
    Takes s n bs (.error (s.error, full))

variable {s : Sink} {n : Nat}

theorem takes_write (h : s.room = some n) (bs : Bytes) : s.Takes n bs (s.write bs) := by
  rw [write, h]
  dsimp only
  split
  · refine .whole ‹_› ?_ rfl rfl
    simp [written]
  · refine .front (Nat.lt_of_not_le ‹_›) ?_
    simp [written]

/-- More bytes behind those that were taken whole. -/
theorem Takes.append {s' : Sink} {bs more : Bytes} {outcome : Except (IoError × Sink) Sink}
    (h : s.Takes n bs (.ok s')) (hmore : s'.Takes (n - bs.length) more outcome) :
    s.Takes n (bs ++ more) outcome := by
  cases h with
  | whole fits written room error =>
    cases hmore with
    | whole fits' written' room' error' =>
      refine .whole ?_ ?_ ?_ (error'.trans error)
      · rw [List.length_append]
        omega
      · rw [written', written, List.append_assoc]
      · rw [room', List.length_append, Nat.sub_sub]
    | front short written' =>
      rw [error]
      refine .front ?_ ?_
      · rw [List.length_append]
        omega
      · rw [written', written, List.take_append, List.take_of_length_le fits, List.append_assoc]

/-- Bytes behind those that were not taken whole do not count. -/
theorem Takes.append_of_error {bs : Bytes} {refused : IoError × Sink}
    (h : s.Takes n bs (.error refused)) (more : Bytes) :
    s.Takes n (bs ++ more) (.error refused) := by
  cases h with
  | front short written =>
    refine .front ?_ ?_
    · rw [List.length_append]
      omega
    · rw [written, List.take_append_of_le_length (Nat.le_of_lt short)]

/-- It does not matter into which pieces the bytes are cut. -/
theorem takes_writeAll (h : s.room = some n) (pieces : List Bytes) :
    s.Takes n pieces.flatten (s.writeAll pieces) := by
  induction pieces generalizing s n with
  | nil => exact .whole (Nat.zero_le n) (List.append_nil _).symm h rfl
  | cons bs rest ih =>
    have hwrite := takes_write h bs
    rw [writeAll, List.flatten_cons]
    cases hs : s.write bs with
    | error refused =>
      rw [hs] at hwrite
      exact hwrite.append_of_error rest.flatten
    | ok s' =>
      rw [hs] at hwrite
      have hroom : s'.room = some (n - bs.length) := by
        cases hwrite
        assumption
      exact hwrite.append (ih hroom)

theorem takes_report (h : s.room = some n) (format : Format) (findings : List Finding) :
    s.Takes n (Report.bytes format findings) (s.report format findings) := by
  have htakes := takes_writeAll h ((Report.pieces format findings).map Utf8.encode)
  rwa [Utf8.flatten_map_encode] at htakes

/-- What is written into an empty sink: the report when it fits, and else the front of it. -/
theorem report_of_written_eq_nil (hroom : s.room = some n) (hnew : s.written = []) (format : Format)
    (findings : List Finding) :
    ((∃ s', s.report format findings = .ok s') ↔ (Report.bytes format findings).length ≤ n) ∧
    (∀ s', s.report format findings = .ok s' → s'.written = Report.bytes format findings) ∧
    ∀ e full, s.report format findings = .error (e, full) →
      e = s.error ∧ full.written = (Report.bytes format findings).take n := by
  have htakes := takes_report hroom format findings
  generalize s.report format findings = outcome at htakes ⊢
  cases htakes with
  | whole fits written =>
    refine ⟨iff_of_true ⟨_, rfl⟩ fits, ?_, ?_⟩
    · rintro s' ⟨⟩
      rw [written, hnew, List.nil_append]
    · rintro e full ⟨⟩
  | front short written =>
    refine ⟨iff_of_false (fun ⟨_, h⟩ => nomatch h) (Nat.not_le_of_lt short), ?_, ?_⟩
    · rintro s' ⟨⟩
    · rintro e full ⟨⟩
      exact ⟨rfl, by rw [written, hnew, List.nil_append]⟩

end Sink

namespace Report

/-! ## JSON reports that are cut off -/

/-- Without its line feed a JSON report is still a document. -/
theorem isDocument_render_toJson (fs : List Finding) : Json.IsDocument (toJson fs).render := by
  have hread := Json.read?_render_append (isWhole_toJson fs) (List.forall_mem_nil _)
  rw [List.append_nil] at hread
  exact Json.isDocument_of_read? hread

theorem isDocument_text_json (fs : List Finding) : Json.IsDocument (text .json fs) :=
  Json.isDocument_of_read? (read?_text_json fs)

theorem bytes_json (fs : List Finding) :
    bytes .json fs = Utf8.encode (toJson fs).render ++ [Byte.lineFeed] := by
  rw [bytes, text_json, Utf8.encode_append]
  rfl

/-- The first bytes of a JSON report are a document exactly when no more than the line feed is
missing. -/
theorem isDocument_take_json_iff (fs : List Finding) (n : Nat) :
    (∃ text, Utf8.decode? ((bytes .json fs).take n) = some text ∧ Json.IsDocument text) ↔
      (bytes .json fs).length ≤ n + 1 := by
  constructor
  · rintro ⟨front, hdecode, hdocument⟩
    have hbytes := List.take_append_drop n (bytes .json fs)
    rw [Utf8.decode?_eq_some_iff.mp hdecode, bytes] at hbytes
    obtain ⟨more, heq, hmore⟩ := Utf8.exists_append_of_encode_append hbytes
    rw [text_json] at heq
    have hshort : more.length ≤ 1 := by
      by_contra hlong
      exact Json.not_isDocument_of_append_eq (areWhole_map_toJson _)
        (List.forall_mem_singleton.mpr rfl) heq (Nat.lt_of_not_le hlong) hdocument
    -- What is missing is nothing or the line feed, which is one byte.
    have hlength : (Utf8.encode more).length ≤ 1 := by
      cases more with
      | nil => exact Nat.zero_le 1
      | cons c rest =>
        obtain rfl : rest = [] := by simpa using hshort
        obtain ⟨-, hc⟩ := List.append_inj' heq rfl
        rw [hc]
        decide
    rw [hmore, ← bytes, List.length_drop] at hlength
    omega
  · intro h
    by_cases hall : (bytes .json fs).length ≤ n
    · refine ⟨text .json fs, ?_, isDocument_text_json fs⟩
      rw [List.take_of_length_le hall, decode?_bytes]
    · have hn : n = (Utf8.encode (toJson fs).render).length := by
        rw [bytes_json, List.length_append, List.length_singleton] at h hall
        omega
      refine ⟨(toJson fs).render, ?_, isDocument_render_toJson fs⟩
      rw [bytes_json, hn, List.take_left, Utf8.decode?_eq_some_iff]

end Report

/-! ## Surveys that are written into a sink -/

namespace FileSystem

variable {host : Survey.Host} {fs : FileSystem} {o : Options} {input : Path} {s s' : Sink} {n : Nat}

theorem survey_of_tabSize_eq_zero (host : Survey.Host) (fs : FileSystem) (ht : o.tabSize = 0)
    (paths : List Path) : fs.survey host o paths = .error .zeroTabSize := by
  rw [survey, ht]
  rfl

theorem exists_survey_eq_ok (hh : host.IsComplete) (fs : FileSystem) (ht : 0 < o.tabSize)
    (paths : List Path) : ∃ survey, fs.survey host o paths = .ok survey := by
  have hwidth : o.tabSize = (TabSize.mk o.tabSize ht).width := rfl
  exact ⟨_, Survey.survey_eq_reference hh fs hwidth paths⟩

theorem surveyInto_of_survey_eq_error {p : Survey.Problem}
    (h : fs.survey host o (fs.discover o.extensions input) = .error p) (s : Sink) :
    fs.surveyInto host o input s = (.error (.survey p), s) := by
  rw [surveyInto, h]

section

variable {survey : Survey} (h : fs.survey host o (fs.discover o.extensions input) = .ok survey)
include h

/-- A survey that is done ends as its report does. -/
theorem surveyInto_eq_ok_iff {tally : Tally} :
    fs.surveyInto host o input s = (.ok tally, s') ↔
      tally = survey.tally ∧ s.report o.format survey.findings = .ok s' := by
  rw [surveyInto, h]
  dsimp only
  cases s.report o.format survey.findings with
  | error refused => simp
  | ok after => simp [eq_comm]

theorem surveyInto_eq_error_iff {e : ReportError} :
    fs.surveyInto host o input s = (.error e, s') ↔
      ∃ refusal, e = .sink refusal ∧ s.report o.format survey.findings = .error (refusal, s') := by
  rw [surveyInto, h]
  dsimp only
  cases s.report o.format survey.findings with
  | error refused => simp [Prod.ext_iff, eq_comm]
  | ok after => simp

end

/-- A survey that fails leaves the sink as it was. -/
theorem sink_eq_of_surveyInto_eq_survey {p : Survey.Problem}
    (h : fs.surveyInto host o input s = (.error (.survey p), s')) : s' = s := by
  cases hsurvey : fs.survey host o (fs.discover o.extensions input) with
  | error q =>
    rw [surveyInto_of_survey_eq_error hsurvey] at h
    exact (Prod.mk.inj h).2.symm
  | ok survey =>
    obtain ⟨refusal, heq, -⟩ := (surveyInto_eq_error_iff hsurvey).mp h
    cases heq

end FileSystem

/-- Into an empty sink with room for `n` bytes a report is written whole exactly when it has no more
than `n` bytes; else its first `n` bytes are written, and what is told is the error of the sink. The
first `n` bytes of a JSON report are a document exactly when no more than its line feed is missing.
A survey writes its report in the same way. One that fails writes nothing, as for a tab size of 0. -/
theorem Report.first_bytes_are_written {s : Sink} {n : Nat} (hroom : s.room = some n)
    (hnew : s.written = []) :
    (∀ format findings,
      ((∃ s', s.report format findings = .ok s') ↔ (bytes format findings).length ≤ n) ∧
      (∀ s', s.report format findings = .ok s' → s'.written = bytes format findings) ∧
      ∀ e full, s.report format findings = .error (e, full) →
        e = s.error ∧ full.written = (bytes format findings).take n) ∧
    (∀ findings,
      (∃ text, Utf8.decode? ((bytes .json findings).take n) = some text ∧ Json.IsDocument text) ↔
        (bytes .json findings).length ≤ n + 1) ∧
    ∀ (host : Survey.Host) (fs : FileSystem) (o : Options) (input : Path),
      (o.tabSize = 0 → fs.surveyInto host o input s = (.error (.survey .zeroTabSize), s)) ∧
      (∀ p s', fs.surveyInto host o input s = (.error (.survey p), s') → s'.written = []) ∧
      (0 < o.tabSize → host.IsComplete →
        ∃ survey, fs.survey host o (fs.discover o.extensions input) = .ok survey) ∧
      ∀ survey, fs.survey host o (fs.discover o.extensions input) = .ok survey →
        ((∃ tally s', fs.surveyInto host o input s = (.ok tally, s')) ↔
          (bytes o.format survey.findings).length ≤ n) ∧
        (∀ tally s', fs.surveyInto host o input s = (.ok tally, s') →
          tally = survey.tally ∧ s'.written = bytes o.format survey.findings) ∧
        ∀ e full, fs.surveyInto host o input s = (.error e, full) →
          e = .sink s.error ∧ e.chain.getLast? = some s.error.text ∧
          full.written = (bytes o.format survey.findings).take n := by
  have hreport := Sink.report_of_written_eq_nil hroom hnew
  refine ⟨hreport, fun findings => isDocument_take_json_iff findings n,
    fun host fs o input => ⟨fun ht => ?_, fun p s' h => ?_, fun ht hh => ?_, fun survey h => ?_⟩⟩
  · exact FileSystem.surveyInto_of_survey_eq_error
      (FileSystem.survey_of_tabSize_eq_zero host fs ht _) s
  · rw [FileSystem.sink_eq_of_surveyInto_eq_survey h, hnew]
  · exact FileSystem.exists_survey_eq_ok hh fs ht _
  · obtain ⟨hfits, hwhole, hfront⟩ := hreport o.format survey.findings
    refine ⟨?_, fun tally s' hinto => ?_, fun e full hinto => ?_⟩
    · simp [FileSystem.surveyInto_eq_ok_iff h, ← hfits]
    · obtain ⟨rfl, hok⟩ := (FileSystem.surveyInto_eq_ok_iff h).mp hinto
      exact ⟨rfl, hwhole s' hok⟩
    · obtain ⟨refusal, rfl, herror⟩ := (FileSystem.surveyInto_eq_error_iff h).mp hinto
      obtain ⟨rfl, hwritten⟩ := hfront refusal full herror
      exact ⟨rfl, rfl, hwritten⟩

/-- There is no room for the one finding: what is written of it ends within the name of the rule. -/
theorem Report.tab_is_reported_in_part :
    let s : Sink :=
      { room := some 29, error := ⟨.storageFull, "No space left on device (os error 28)"⟩ }
    let fs : FileSystem :=
      { root := .folder [([0x61, 0x2E, 0x63, 0x73], .file [0x09, 0x0A])], current := [] }
    let o : Options := { Options.default with rules := [.tabs], format := .json }
    (s.room = some 29 ∧ s.written = [] ∧ 0 < o.tabSize ∧ Survey.Host.IsComplete {}) ∧
    (∃ full, fs.surveyInto {} o [0x2E] s = (.error (.sink s.error), full) ∧
      full.written = Path.ofString "[\x7b\"path\":\"./a.cs\",\"rule\":\"tab" ∧
      ¬ ∃ text, Utf8.decode? full.written = some text ∧ Json.IsDocument text) ∧
    fs.surveyInto {} { o with tabSize := 0 } [0x2E] s = (.error (.survey .zeroTabSize), s) := by
  intro s fs o
  have hh := Survey.Host.isComplete_default
  have ht : o.tabSize = Settings.defaultTabSize.width := rfl
  let finding : Finding :=
    ⟨0, .tabs, [0x2E, 0x2F, 0x61, 0x2E, 0x63, 0x73], .fault (.tabCharacter 1)⟩
  have hfound : (Command.found fs Settings.defaultTabSize o [0x2E]).findings = [finding] := by cbv
  have hlength : (bytes .json [finding]).length = 99 := by decide +kernel
  have hfront : (bytes .json [finding]).take 29 =
      Path.ofString "[\x7b\"path\":\"./a.cs\",\"rule\":\"tab" := by decide +kernel
  obtain ⟨-, hdocument, hsurveys⟩ := first_bytes_are_written (s := s) (n := 29) rfl rfl
  obtain ⟨-, -, hdone, hinto⟩ := hsurveys {} fs o [0x2E]
  obtain ⟨survey, hsurvey⟩ := hdone (by decide) hh
  obtain ⟨hfits, -, hcut⟩ := hinto survey hsurvey
  obtain rfl := Except.ok.inj ((Survey.survey_eq_reference hh fs ht _).symm.trans hsurvey)
  rw [← Command.found, hfound] at hfits hcut
  refine ⟨⟨rfl, rfl, by decide, hh⟩, ?_, (hsurveys {} fs { o with tabSize := 0 } [0x2E]).1 rfl⟩
  cases hend : fs.surveyInto {} o [0x2E] s with
  | mk outcome full =>
    cases outcome with
    | ok tally => exact absurd (hfits.mp ⟨tally, full, hend⟩) (by rw [hlength]; decide)
    | error e =>
      obtain ⟨rfl, -, hwritten⟩ := hcut e full hend
      refine ⟨full, rfl, by rw [hwritten, hfront], ?_⟩
      rw [hwritten, hdocument, hlength]
      decide

end TextHygiene
