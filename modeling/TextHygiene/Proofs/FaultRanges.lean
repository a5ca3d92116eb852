import TextHygiene.Proofs.ReadErrors
import TextHygiene.Proofs.SurveyExactness

/-! What faults say. A fault names the rule that found it, its line is one of the text, and its other
number is the tab size or a number of line feeds that the text can end in. In a report the fault of a
finding goes with the rule and the path of the finding. -/

namespace TextHygiene

/-- A fault of the rule `r` whose numbers are possible for the text `d`. -/
structure Fault.Fits (t : TabSize) (r : Rule) (d : Bytes) (f : Fault) : Prop where
  rule_eq : f.rule = r
  line_mem : ∀ n, f.line? = some n → 1 ≤ n ∧ n ≤ 1 + d.lineFeeds
  unit_eq : ∀ unit n, f = .badIndentation unit n → unit = t.width ∧ 2 ≤ t.width
  count_mem : ∀ n, f.count? = some n → (n = 0 ∨ 2 ≤ n) ∧ n ≤ d.length

theorem Bytes.finalLineFeeds_le_length (d : Bytes) : d.finalLineFeeds ≤ d.length := by
  have hle := (List.takeWhile_sublist (decide <| · = Byte.lineFeed) (l := d.reverse)).length_le
  rwa [List.length_reverse] at hle

/-- No number of spaces is left over by levels of one space. -/
theorem TabSize.two_le_of_mod_ne_zero {t : TabSize} {spaces : Nat} (h : spaces % t.width ≠ 0) :
    2 ≤ t.width := by
  have hpos := t.width_pos
  have hone : t.width ≠ 1 := fun hone => h (by rw [hone, Nat.mod_one])
  omega

namespace Detector

variable {t : TabSize} {r : Rule}

/-- A byte that is met with a fault stands in the line that the detector has come to. -/
theorem fault_of_feed {reached : Detector} {k : Nat} {b : UInt8} {f : Fault}
    (hreached : reached.lineStart = (start t r).below k) (h : reached.feed b = .error f) :
    f.rule = r ∧ f.line? = some (1 + k) ∧
      ∀ unit n, f = .badIndentation unit n → unit = t.width ∧ 2 ≤ t.width := by
  cases reached with
  | indentation unit line spaces leading =>
    -- A start of another rule is never met here, so `r` is the rule of the detector.
    cases r <;> cases hreached
    simp only [feed] at h
    split_ifs at h with _ _ _ hmod
    cases h
    refine ⟨rfl, rfl, ?_⟩
    rintro _ _ ⟨⟩
    exact ⟨rfl, TabSize.two_le_of_mod_ne_zero hmod⟩
  | finalNewline run =>
    simp only [feed] at h
    split_ifs at h
  | _ =>
    cases r <;> cases hreached
    simp only [feed] at h
    split_ifs at h
    cases h
    refine ⟨rfl, rfl, ?_⟩
    rintro _ _ ⟨⟩

/-- Only the last rule finds something at the end. -/
theorem fault_of_finish {d : Bytes} {reached : Detector} {f : Fault}
    (hrun : (start t r).run d = .ok reached) (h : reached.finish = some f) :
    r = .finalNewline ∧ f = .finalNewlineCount d.finalLineFeeds ∧ d.finalLineFeeds ≠ 1 := by
  have hrule := (rule_run hrun).trans (rule_start t r)
  cases reached with
  | finalNewline run =>
    obtain rfl : .finalNewline = r := hrule
    obtain ⟨⟩ := Except.ok.inj ((run_finalNewline d).symm.trans hrun)
    simpa [finish, eq_comm, and_comm] using h
  | _ => cases h

theorem fits_of_judge {d : Bytes} {ending : Option IoError} {f : Fault}
    (h : (start t r).judge ⟨d, ending⟩ = .failed (.fault f)) : f.Fits t r d := by
  rw [judge] at h
  cases hrun : (start t r).run d with
  | error g =>
    rw [hrun] at h
    cases h
    obtain ⟨before, b, rest, reached, rfl, hbefore, hfeed⟩ := run_eq_error_iff.mp hrun
    have hreached := lineStart_run hbefore
    rw [lineStart_start] at hreached
    obtain ⟨hrule, hline, hunit⟩ := fault_of_feed hreached hfeed
    refine ⟨hrule, fun n hn => ?_, hunit, fun n hn => ?_⟩
    · obtain rfl := Option.some.inj (hline.symm.trans hn)
      rw [Bytes.lineFeeds_append]
      omega
    · cases f <;> cases hn
      cases hline
  | ok reached =>
    rw [hrun] at h
    cases herror : (Stream.mk d ending).error? with
    | some e => simp [herror] at h
    | none =>
      cases hfinish : reached.finish with
      | none => simp [herror, hfinish, Verdict.ofFault?] at h
      | some g =>
        obtain rfl : g = f := by simpa [herror, hfinish, Verdict.ofFault?] using h
        obtain ⟨hr, rfl, hne⟩ := fault_of_finish hrun hfinish
        have hle := d.finalLineFeeds_le_length
        refine ⟨hr.symm, fun n hn => ?_, fun unit n heq => ?_, fun n hn => ?_⟩
        · cases hn
        · cases heq
        · obtain rfl := Option.some.inj hn
          exact ⟨by omega, hle⟩

end Detector

/-- A fault that a rule tells of a text names the rule, comes with the path that was given and has
numbers that are possible for the text: a line of it, the tab size, which is then two at least, or a
number of line feeds other than one. A pass that is shared tells no other faults. So in every report
the fault of a finding is one of its rule, in the file at its position in the list. -/
theorem Fault.goes_with_rule_path_and_text :
    (∀ (p q : Path) (t : TabSize) (s : Stream) (r : Rule) (f : Fault),
      (r.judge t s).failure? p = some ⟨q, .fault f⟩ → q = p ∧ f.Fits t r s.bytes) ∧
    (∀ (p q : Path) (t : TabSize) (s : Stream) (rules : List Rule) (r : Rule) (v : Verdict)
      (f : Fault), (r, v) ∈ judgeShared t s rules → v.failure? p = some ⟨q, .fault f⟩ →
      q = p ∧ f.Fits t r s.bytes) ∧
    ∀ (fs : FileSystem) (host : Survey.Host) (o : Options) (t : TabSize) (paths : List Path),
      host.IsComplete → o.tabSize = t.width →
      ∃ report, fs.survey host o paths = .ok report ∧
        ∀ g ∈ report.findings, ∀ f, g.failure.cause = .fault f →
          paths[g.fileIndex]? = some g.failure.path ∧
          ∃ s, fs.openStream g.failure.path = .ok s ∧ f.Fits t g.rule s.bytes := by
  have hjudge : ∀ (p q : Path) (t : TabSize) (s : Stream) (r : Rule) (f : Fault),
      (r.judge t s).failure? p = some ⟨q, .fault f⟩ → q = p ∧ f.Fits t r s.bytes := by
    intro p q t s r f h
    cases hverdict : r.judge t s with
    | passed =>
      rw [hverdict] at h
      cases h
    | failed cause =>
      rw [hverdict] at h
      cases h
      exact ⟨rfl, Detector.fits_of_judge hverdict⟩
  refine ⟨hjudge, fun p q t s rules r v f hmem h => ?_, fun fs host o t paths hh ht => ?_⟩
  · rw [judgeShared_eq_map_judge, List.mem_map] at hmem
    obtain ⟨_, -, ⟨⟩⟩ := hmem
    exact hjudge p q t s r f h
  · refine ⟨_, Survey.survey_eq_reference hh fs ht paths, fun g hg f hf => ?_⟩
    obtain ⟨hget, hcheck⟩ := Survey.check_of_mem_reference hg
    obtain ⟨-, ⟨e, -, hcause⟩ | ⟨s, hopen, hverdict⟩⟩ := FileSystem.check_eq_some_iff.mp hcheck
    · rw [hf] at hcause
      cases hcause
    · rw [hf] at hverdict
      exact ⟨hget, s, hopen, Detector.fits_of_judge hverdict⟩

/-- A text of three lines of which the second is misindented, and the last path of the sample list,
which was in the list before. -/
theorem Fault.fits_three_lines_and_samplePaths :
    let t : TabSize := ⟨4, by decide⟩
    let s : Stream := ⟨[0x61, Byte.lineFeed, Byte.space, 0x61, Byte.lineFeed, Byte.lineFeed], none⟩
    let p : Path := [0x70]
    let g : Finding := ⟨5, .tabs, ⟨[0x61], .fault (.tabCharacter 1)⟩⟩
    ((Rule.indentation.judge t s).failure? p = some ⟨p, .fault (.badIndentation 4 2)⟩ ∧
      (Rule.finalNewline, Verdict.failed (.fault (.finalNewlineCount 2))) ∈
        judgeShared t s [.indentation, .finalNewline] ∧
      Survey.lastFirst.IsComplete ∧ Survey.sampleOptions.tabSize = t.width) ∧
    (Fault.badIndentation 4 2).Fits t .indentation s.bytes ∧
    (Fault.finalNewlineCount 2).Fits t .finalNewline s.bytes ∧
    ∃ report,
      Survey.sampleTree.survey Survey.lastFirst Survey.sampleOptions Survey.samplePaths =
        .ok report ∧
      g ∈ report.findings ∧ Survey.samplePaths[5]? = some g.failure.path ∧
      ∃ s, Survey.sampleTree.openStream g.failure.path = .ok s ∧
        (Fault.tabCharacter 1).Fits t .tabs s.bytes := by
  intro t s p g
  have hindent : (Rule.indentation.judge t s).failure? p =
      some ⟨p, .fault (.badIndentation 4 2)⟩ := by decide
  have hcount : (Rule.finalNewline, Verdict.failed (.fault (.finalNewlineCount 2))) ∈
      judgeShared t s [.indentation, .finalNewline] := by decide
  obtain ⟨hjudge, hshared, hsurvey⟩ := goes_with_rule_path_and_text
  obtain ⟨report, hrun, hreport⟩ := hsurvey Survey.sampleTree Survey.lastFirst
    Survey.sampleOptions t Survey.samplePaths Survey.lastFirst_isComplete rfl
  have hreference := Survey.survey_eq_reference Survey.lastFirst_isComplete Survey.sampleTree
    (o := Survey.sampleOptions) (t := t) rfl Survey.samplePaths
  have hg : g ∈ report.findings := by
    rw [Except.ok.inj (hrun.symm.trans hreference)]
    exact Survey.mem_findings_reference.mpr ⟨[0x61], rfl, by decide, by decide, rfl⟩
  refine ⟨⟨hindent, hcount, Survey.lastFirst_isComplete, rfl⟩, ?_, ?_, report, hrun, hg, ?_⟩
  · exact (hjudge p p t s _ _ hindent).2
  · exact (hshared p p t s _ _ _ _ hcount rfl).2
  · exact hreport g hg _ rfl

end TextHygiene
