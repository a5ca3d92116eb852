import TextHygiene.Proofs.SurveyAgreement

/-! Nothing passes from file to file or from rule to rule in a survey. Two lists of paths one after
the other are surveyed as each list alone, a rule that is enabled besides others finds what it
finds alone, and the order and the repetitions of the enabled rules do not matter. -/

namespace TextHygiene

/-- The counts of two surveys together. -/
def Tally.add (a b : Tally) : Tally where
  filesChecked := a.filesChecked + b.filesChecked
  filesSkipped := a.filesSkipped + b.filesSkipped
  checksRun := a.checksRun + b.checksRun
  failures := a.failures + b.failures

/-- The finding in a list that has `n` more paths in front. -/
def Finding.shift (n : Nat) (f : Finding) : Finding := { f with fileIndex := f.fileIndex + n }

namespace Rule

theorem normalize_filter (rs : List Rule) (keep : Rule → Bool) :
    normalize (rs.filter keep) = (normalize rs).filter keep := by
  rw [normalize, normalize, List.filter_filter]
  refine List.filter_congr fun r _ => ?_
  simp [List.mem_filter, Bool.and_comm]

theorem normalize_congr {rs rs' : List Rule} (h : ∀ r, r ∈ rs ↔ r ∈ rs') :
    normalize rs = normalize rs' :=
  List.filter_congr fun r _ => decide_eq_decide.mpr (h r)

end Rule

namespace Survey

/-- The report on two lists of paths one after the other, of which the first has `n` paths. -/
def append (n : Nat) (a b : Survey) : Survey :=
  ⟨a.findings ++ b.findings.map (Finding.shift n), a.tally.add b.tally⟩

def Candidate.shift (n : Nat) (c : Candidate) : Candidate := { c with index := c.index + n }

section

variable (fs : FileSystem) (t : TabSize)

theorem candidates_append (limit : Option Nat) (a b : List Path) :
    candidates fs limit (a ++ b) =
      candidates fs limit a ++ (candidates fs limit b).map (Candidate.shift a.length) := by
  rw [candidates, List.zipIdx_append, List.filterMap_append, ← candidates]
  congr 1
  rw [candidates, List.map_filterMap, Nat.zero_add, List.zipIdx_eq_map_add, List.filterMap_map]
  refine List.filterMap_congr ?_
  rintro ⟨p, i⟩ -
  simp only [Function.comp_apply, Nat.add_comm a.length]
  cases oversized fs limit p <;> rfl

theorem finding?_shift (n : Nat) (c : Candidate) (r : Rule) :
    finding? fs t (c.shift n) r = (finding? fs t c r).map (Finding.shift n) := by
  rw [finding?, finding?, Option.map_map]
  rfl

theorem fileByFile_append (rules : List Rule) (a b : List Candidate) :
    fileByFile fs t rules (a ++ b) = fileByFile fs t rules a ++ fileByFile fs t rules b := by
  simp [fileByFile]

theorem fileByFile_map_shift (rules : List Rule) (n : Nat) (files : List Candidate) :
    fileByFile fs t rules (files.map (Candidate.shift n)) =
      (fileByFile fs t rules files).map (Finding.shift n) := by
  rw [fileByFile, fileByFile, List.flatMap_map, List.map_flatMap]
  congr 1
  funext c
  rw [List.map_filterMap]
  exact congrArg (rules.filterMap ·) (funext (finding?_shift fs t n c))

theorem fileByFile_filter (rules : List Rule) (keep : Rule → Bool) (files : List Candidate) :
    fileByFile fs t (rules.filter keep) files =
      (fileByFile fs t rules files).filter (keep ·.rule) := by
  rw [fileByFile, fileByFile, List.filter_flatMap]
  congr 1
  funext c
  rw [List.filterMap_filter, List.filter_filterMap]
  refine List.filterMap_congr fun r _ => ?_
  cases hf : finding? fs t c r with
  | none => simp
  | some f =>
    have hr : f.rule = r := (finding?_eq_some_iff.mp hf).2.1
    simp [hr, Option.filter]

/-! ## The reference report -/

theorem reference_append (o : Options) (a b : List Path) :
    reference fs t o (a ++ b) = (reference fs t o a).append a.length (reference fs t o b) := by
  simp only [reference, append, Tally.add, candidates_append, fileByFile_append,
    fileByFile_map_shift, List.length_append, List.length_map, List.countP_append, Nat.add_mul]

theorem findings_reference_filter (o : Options) (keep : Rule → Bool) (paths : List Path) :
    (reference fs t { o with rules := o.rules.filter keep } paths).findings =
      (reference fs t o paths).findings.filter (keep ·.rule) := by
  simp only [reference, Rule.normalize_filter, fileByFile_filter]

theorem reference_congr {o : Options} {rules : List Rule} (h : ∀ r, r ∈ o.rules ↔ r ∈ rules)
    (paths : List Path) :
    reference fs t o paths = reference fs t { o with rules := rules } paths := by
  simp only [reference, Rule.normalize_congr h]

end

/-- There is one report for the enabled rules and the paths, whichever engine scans, however many
threads there are and in whichever order their results arrive. The report on two lists of paths is
the one on the first and then the one on the second; with fewer rules it has the findings of those
that are left; and it depends on the set of the rules alone. -/
theorem survey_shares_no_state (fs : FileSystem) (o : Options) (ht : 0 < o.tabSize) :
    ∃ report : List Rule → List Path → Survey,
      (∀ (host : Host) (engine : Engine) (threads : Option Nat) (rules : List Rule)
        (paths : List Path), host.IsComplete →
        fs.survey host { o with rules := rules, engine := engine, threads := threads } paths =
          .ok (report rules paths)) ∧
      (∀ rules a b, report rules (a ++ b) = (report rules a).append a.length (report rules b)) ∧
      (∀ (rules others : List Rule) (paths : List Path),
        (report (rules.filter (· ∈ others)) paths).findings =
          (report rules paths).findings.filter (·.rule ∈ others)) ∧
      ∀ rules others : List Rule, (∀ r, r ∈ rules ↔ r ∈ others) → report rules = report others := by
  let t : TabSize := ⟨o.tabSize, ht⟩
  refine ⟨fun rules => reference fs t { o with rules := rules }, ?_, ?_, ?_, ?_⟩
  · intro host engine threads rules paths hh
    let o' := { o with rules := rules, engine := engine, threads := threads }
    exact survey_eq_reference hh fs (o := o') (t := t) rfl paths
  · intro rules a b
    exact reference_append fs t { o with rules := rules } a b
  · intro rules others paths
    exact findings_reference_filter fs t { o with rules := rules } (· ∈ others) paths
  · intro rules others h
    funext paths
    exact reference_congr fs t (o := { o with rules := rules }) h paths

/-- The report on the first two sample paths. -/
def sampleFirst : Survey where
  findings :=
    [⟨0, .tabs, ⟨[0x62], .unreadable DiskError.permissionDenied.toIoError⟩⟩,
      ⟨0, .finalNewline, ⟨[0x62], .unreadable DiskError.permissionDenied.toIoError⟩⟩,
      ⟨1, .tabs, ⟨[0x61], .fault (.tabCharacter 1)⟩⟩]
  tally := { filesChecked := 2, filesSkipped := 0, checksRun := 4, failures := 3 }

/-- The report on the other four, whose positions begin at 0. -/
def sampleRest : Survey where
  findings :=
    [⟨0, .tabs, ⟨[0x65], .unreadable .notFound⟩⟩,
      ⟨0, .finalNewline, ⟨[0x65], .unreadable .notFound⟩⟩,
      ⟨1, .tabs, ⟨[0x63], .fault (.tabCharacter 1)⟩⟩,
      ⟨2, .tabs, ⟨[0x64], .unreadable .isADirectory⟩⟩,
      ⟨2, .finalNewline, ⟨[0x64], .unreadable .isADirectory⟩⟩,
      ⟨3, .tabs, ⟨[0x61], .fault (.tabCharacter 1)⟩⟩]
  tally := { filesChecked := 4, filesSkipped := 0, checksRun := 8, failures := 6 }

/-- The sample paths in two parts, of which the first is scanned in one pass by many threads and the
second rule by rule, the rules listed in another order. With one of the rules left, the findings of
the whole are those of that rule. -/
theorem survey_sample_in_two_parts :
    (0 < sampleOptions.tabSize ∧ lastFirst.IsComplete ∧ Host.IsComplete {} ∧
      ∀ r, r ∈ sampleOptions.rules ↔ r ∈ [Rule.tabs, Rule.finalNewline]) ∧
    sampleTree.survey lastFirst { sampleOptions with engine := .fused, threads := none }
      [[0x62], [0x61]] = .ok sampleFirst ∧
    sampleTree.survey {} { sampleOptions with rules := [.tabs, .finalNewline] }
      [[0x65], [0x63], [0x64], [0x61]] = .ok sampleRest ∧
    sampleTree.survey lastFirst sampleOptions samplePaths =
      .ok (sampleFirst.append 2 sampleRest) ∧
    sampleFirst.append 2 sampleRest = sampleWhole ∧
    ∃ s, sampleTree.survey lastFirst { sampleOptions with rules := [.finalNewline, .finalNewline] }
        samplePaths = .ok s ∧
      s.findings = sampleWhole.findings.filter (·.rule ∈ [Rule.finalNewline]) := by
  have hsame : ∀ r, r ∈ sampleOptions.rules ↔ r ∈ [Rule.tabs, Rule.finalNewline] := by
    intro r
    cases r <;> decide
  have happended : sampleFirst.append 2 sampleRest = sampleWhole := by rfl
  obtain ⟨report, hrun, happend, hfilter, hcongr⟩ :=
    survey_shares_no_state sampleTree sampleOptions (by decide)
  have hreference : ∀ rules paths, report rules paths =
      reference sampleTree ⟨4, by decide⟩ { sampleOptions with rules := rules } paths := by
    intro rules paths
    have hserial := hrun {} .perRule none rules paths Host.isComplete_default
    rw [survey_eq_reference Host.isComplete_default sampleTree (t := ⟨4, by decide⟩) rfl] at hserial
    exact (Except.ok.inj hserial).symm
  have hfirst : report sampleOptions.rules [[0x62], [0x61]] = sampleFirst := hreference _ _
  have hrest : report [.tabs, .finalNewline] [[0x65], [0x63], [0x64], [0x61]] = sampleRest :=
    hreference _ _
  have hwhole : report sampleOptions.rules samplePaths = sampleFirst.append 2 sampleRest := by
    rw [← hfirst, ← hrest, ← hcongr _ _ hsame]
    exact happend sampleOptions.rules [[0x62], [0x61]] [[0x65], [0x63], [0x64], [0x61]]
  refine ⟨⟨by decide, lastFirst_isComplete, Host.isComplete_default, hsame⟩, ?_, ?_, ?_, happended,
    report [.finalNewline, .finalNewline] samplePaths, ?_, ?_⟩
  · rw [← hfirst]
    exact hrun lastFirst .fused none sampleOptions.rules _ lastFirst_isComplete
  · rw [← hrest]
    exact hrun {} .perRule none [.tabs, .finalNewline] _ Host.isComplete_default
  · rw [← hwhole]
    exact hrun lastFirst .perRule none sampleOptions.rules samplePaths lastFirst_isComplete
  · exact hrun lastFirst .perRule none [.finalNewline, .finalNewline] samplePaths
      lastFirst_isComplete
  · rw [← happended, ← hwhole]
    exact hfilter sampleOptions.rules [.finalNewline] samplePaths

end Survey

end TextHygiene
