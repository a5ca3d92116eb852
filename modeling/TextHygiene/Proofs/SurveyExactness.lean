import Mathlib
import TextHygiene.Proofs.SurveyAgreement

/-! A survey reports exactly the failures there are: every enabled rule that fails on a file that is
not left out, once, with the file's position in the list that was given; and its counts add up. -/

namespace TextHygiene.Survey

/-- A file is left out when there is a limit and its length is known and above the limit. -/
def IsSkipped (fs : FileSystem) (limit : Option Nat) (p : Path) : Prop :=
  ∃ m n, limit = some m ∧ fs.length? p = some n ∧ m < n

theorem oversized_iff_isSkipped {fs : FileSystem} {limit : Option Nat} {p : Path} :
    oversized fs limit p = true ↔ IsSkipped fs limit p := by
  unfold oversized IsSkipped
  cases limit with
  | none => simp
  | some m =>
    cases fs.length? p with
    | none => simp
    | some n => simp

instance (fs : FileSystem) (limit : Option Nat) (p : Path) : Decidable (IsSkipped fs limit p) :=
  decidable_of_iff _ oversized_iff_isSkipped

/-- What a survey says, held against the checks of single rules on single files. -/
structure IsExact (fs : FileSystem) (t : TabSize) (o : Options) (paths : List Path) (s : Survey) :
    Prop where
  mem_findings_iff : ∀ f, f ∈ s.findings ↔
    ∃ p, paths[f.fileIndex]? = some p ∧ ¬ IsSkipped fs o.maxFileSize p ∧ f.rule ∈ o.rules ∧
      fs.check t f.rule p = some f.failure
  nodup_keys : (s.findings.map Finding.key).Nodup
  increasing : s.findings.Pairwise Finding.Before
  filesSkipped_eq : s.tally.filesSkipped = paths.countP fun p => IsSkipped fs o.maxFileSize p
  files_add : s.tally.filesChecked + s.tally.filesSkipped = paths.length
  checksRun_eq : s.tally.checksRun = s.tally.filesChecked * o.rules.toFinset.card
  failures_eq : s.tally.failures = s.findings.length
  failures_le : s.tally.failures ≤ s.tally.checksRun

theorem mem_findings_reference {fs : FileSystem} {t : TabSize} {o : Options} {paths : List Path}
    {f : Finding} :
    f ∈ (reference fs t o paths).findings ↔
      ∃ p, paths[f.fileIndex]? = some p ∧ ¬ IsSkipped fs o.maxFileSize p ∧ f.rule ∈ o.rules ∧
        fs.check t f.rule p = some f.failure := by
  show f ∈ fileByFile fs t (Rule.normalize o.rules) (candidates fs o.maxFileSize paths) ↔ _
  rw [mem_fileByFile]
  constructor
  · rintro ⟨c, hc, hindex, hr, hcheck⟩
    obtain ⟨hget, ho⟩ := mem_candidates.mp hc
    refine ⟨c.path, hindex ▸ hget, ?_, Rule.mem_normalize.mp hr, hcheck⟩
    rw [← oversized_iff_isSkipped, ho]
    exact Bool.false_ne_true
  · rintro ⟨p, hget, hskip, hr, hcheck⟩
    rw [← oversized_iff_isSkipped, Bool.not_eq_true] at hskip
    exact ⟨⟨f.fileIndex, p⟩, mem_candidates.mpr ⟨hget, hskip⟩, rfl, Rule.mem_normalize.mpr hr,
      hcheck⟩

/-- A finding is a failure of its rule on the path at its position. -/
theorem check_of_mem_reference {fs : FileSystem} {t : TabSize} {o : Options} {paths : List Path}
    {f : Finding} (h : f ∈ (reference fs t o paths).findings) :
    paths[f.fileIndex]? = some f.failure.path ∧
      fs.check t f.rule f.failure.path = some f.failure := by
  obtain ⟨p, hget, -, -, hcheck⟩ := mem_findings_reference.mp h
  obtain rfl := FileSystem.path_of_check_eq_some hcheck
  exact ⟨hget, hcheck⟩

theorem isExact_reference (fs : FileSystem) (t : TabSize) (o : Options) (paths : List Path) :
    IsExact fs t o paths (reference fs t o paths) where
  mem_findings_iff _ := mem_findings_reference
  nodup_keys := Finding.nodup_keys (increasing_reference fs t o paths)
  increasing := increasing_reference fs t o paths
  filesSkipped_eq := by
    refine List.countP_congr fun p _ => ?_
    rw [oversized_iff_isSkipped, decide_eq_true_iff]
  files_add := length_candidates_add_countP
  checksRun_eq := by
    rw [← Rule.length_normalize]
    rfl
  failures_eq := rfl
  failures_le := length_fileByFile_le _ _

/-- A survey with a tab size reports exactly the failures of the enabled rules on the files that
are not left out, each once and in order; without one it is refused. -/
theorem survey_is_exact (fs : FileSystem) (host : Host) (o : Options) (paths : List Path) :
    (o.tabSize = 0 → fs.survey host o paths = .error .zeroTabSize) ∧
    (host.IsComplete → ∀ t : TabSize, o.tabSize = t.width →
      ∃ s, fs.survey host o paths = .ok s ∧ IsExact fs t o paths s) := by
  constructor
  · intro h0
    rw [FileSystem.survey, h0]
    rfl
  · intro hh t ht
    exact ⟨_, survey_eq_reference hh fs ht paths, isExact_reference fs t o paths⟩

/-- The report on the sample tree with a limit of 8 bytes: the long file and the folder of 40 bytes
are left out, though the one cannot be opened and the other not be read, and the other files keep
their positions. -/
def sampleReport : Survey where
  findings :=
    [⟨1, .tabs, ⟨[0x61], .fault (.tabCharacter 1)⟩⟩, ⟨2, .tabs, ⟨[0x65], .unreadable .notFound⟩⟩,
      ⟨2, .finalNewline, ⟨[0x65], .unreadable .notFound⟩⟩,
      ⟨3, .tabs, ⟨[0x63], .fault (.tabCharacter 1)⟩⟩,
      ⟨5, .tabs, ⟨[0x61], .fault (.tabCharacter 1)⟩⟩]
  tally := { filesChecked := 4, filesSkipped := 2, checksRun := 8, failures := 5 }

theorem sampleReport_isExact :
    let o := { sampleOptions with maxFileSize := some 8, engine := .fused }
    (lastFirst.IsComplete ∧ o.tabSize = 4) ∧
      sampleTree.survey lastFirst o samplePaths = .ok sampleReport ∧
      IsExact sampleTree ⟨4, by decide⟩ o samplePaths sampleReport := by
  intro o
  have hrun : sampleTree.survey lastFirst o samplePaths = .ok sampleReport := by cbv
  obtain ⟨s, hs, hexact⟩ := (survey_is_exact sampleTree lastFirst o samplePaths).2
    lastFirst_isComplete ⟨4, by decide⟩ rfl
  obtain rfl : s = sampleReport := Except.ok.inj (hs.symm.trans hrun)
  exact ⟨⟨lastFirst_isComplete, rfl⟩, hrun, hexact⟩

end TextHygiene.Survey
