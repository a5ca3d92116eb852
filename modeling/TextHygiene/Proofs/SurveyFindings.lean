import TextHygiene.Proofs.FindingOrder
import TextHygiene.Survey

/-! What a survey is about, said without an engine, threads or an order of arrival: the files that
are checked, the findings of one file after the other, and the counts that go with them. -/

namespace TextHygiene

/-- A check fails when the path cannot be opened, or when the rule's verdict on what is read says
so. -/
theorem FileSystem.check_eq_some_iff {fs : FileSystem} {t : TabSize} {r : Rule} {p : Path}
    {f : Failure} :
    fs.check t r p = some f ↔ f.path = p ∧
      ((∃ e, fs.openStream p = .error e ∧ f.cause = .unreadable e) ∨
        ∃ s, fs.openStream p = .ok s ∧ r.judge t s = .failed f.cause) := by
  obtain ⟨path, cause⟩ := f
  unfold check
  cases fs.openStream p with
  | error e => simp [eq_comm]
  | ok s => cases hverdict : r.judge t s <;> simp [Verdict.failure?, hverdict, eq_comm]

theorem FileSystem.path_of_check_eq_some {fs : FileSystem} {t : TabSize} {r : Rule} {p : Path}
    {f : Failure} (h : fs.check t r p = some f) : f.path = p := (check_eq_some_iff.mp h).1

namespace Survey

/-! ## The files that are checked -/

section

variable {fs : FileSystem} {limit : Option Nat} {paths : List Path}

theorem kept_eq_some_iff {e : Path × Nat} {c : Candidate} :
    (if oversized fs limit e.1 then none else some (Candidate.mk e.2 e.1)) = some c ↔
      oversized fs limit e.1 = false ∧ Candidate.mk e.2 e.1 = c := by
  cases oversized fs limit e.1 <;> simp

theorem mem_candidates {c : Candidate} :
    c ∈ candidates fs limit paths ↔
      paths[c.index]? = some c.path ∧ oversized fs limit c.path = false := by
  rw [candidates, List.mem_filterMap]
  constructor
  · rintro ⟨e, he, hc⟩
    obtain ⟨ho, rfl⟩ := kept_eq_some_iff.mp hc
    exact ⟨List.mem_zipIdx_iff_getElem?.mp he, ho⟩
  · rintro ⟨hget, ho⟩
    have hkept := kept_eq_some_iff (e := (c.path, c.index)) |>.mpr ⟨ho, rfl⟩
    exact ⟨_, List.mem_zipIdx_iff_getElem?.mpr hget, hkept⟩

theorem pairwise_candidates : (candidates fs limit paths).Pairwise (·.index < ·.index) := by
  have hzip : paths.zipIdx.Pairwise (·.2 < ·.2) := by
    rw [← List.pairwise_map (f := Prod.snd), List.zipIdx_map_snd]
    exact List.pairwise_lt_range'
  refine List.pairwise_filterMap.mpr (hzip.imp fun {e e'} hlt c hc c' hc' => ?_)
  obtain ⟨-, rfl⟩ := kept_eq_some_iff.mp hc
  obtain ⟨-, rfl⟩ := kept_eq_some_iff.mp hc'
  exact hlt

theorem length_candidates :
    (candidates fs limit paths).length = paths.countP fun p => !oversized fs limit p := by
  have hkept : ∀ e ∈ paths.zipIdx,
      (if oversized fs limit e.1 then none else some (Candidate.mk e.2 e.1)).isSome = true ↔
        (fun p => !oversized fs limit p) e.1 = true := by
    intro e _
    cases h : oversized fs limit e.1 <;> simp [h]
  rw [candidates, List.length_filterMap_eq_countP, List.countP_congr hkept]
  conv_rhs => rw [← List.zipIdx_map_fst 0 paths, List.countP_map]
  rfl

/-- Every path is either checked or left out. -/
theorem length_candidates_add_countP :
    (candidates fs limit paths).length + paths.countP (oversized fs limit) = paths.length := by
  rw [length_candidates, Nat.add_comm, List.length_eq_countP_add_countP (oversized fs limit)]
  simp

end

/-! ## The findings, file by file -/

/-- The finding of one rule on one file, if it fails. -/
def finding? (fs : FileSystem) (t : TabSize) (c : Candidate) (r : Rule) : Option Finding :=
  (fs.check t r c.path).map (⟨c.index, r, ·⟩)

def fileByFile (fs : FileSystem) (t : TabSize) (rules : List Rule) (files : List Candidate) :
    List Finding :=
  files.flatMap fun c => rules.filterMap (finding? fs t c)

section

variable {fs : FileSystem} {t : TabSize} {rules : List Rule} {files : List Candidate}

theorem finding?_eq_some_iff {c : Candidate} {r : Rule} {f : Finding} :
    finding? fs t c r = some f ↔
      f.fileIndex = c.index ∧ f.rule = r ∧ fs.check t r c.path = some f.failure := by
  rw [finding?, Option.map_eq_some_iff]
  constructor
  · rintro ⟨failure, hcheck, rfl⟩
    exact ⟨rfl, rfl, hcheck⟩
  · rintro ⟨hindex, hrule, hcheck⟩
    exact ⟨f.failure, hcheck, by rw [← hindex, ← hrule]⟩

theorem mem_fileByFile {f : Finding} :
    f ∈ fileByFile fs t rules files ↔
      ∃ c ∈ files, f.fileIndex = c.index ∧ f.rule ∈ rules ∧
        fs.check t f.rule c.path = some f.failure := by
  simp only [fileByFile, List.mem_flatMap, List.mem_filterMap, finding?_eq_some_iff]
  constructor
  · rintro ⟨c, hc, r, hr, hindex, rfl, hcheck⟩
    exact ⟨c, hc, hindex, hr, hcheck⟩
  · rintro ⟨c, hc, hindex, hr, hcheck⟩
    exact ⟨c, hc, f.rule, hr, hindex, rfl, hcheck⟩

theorem pairwise_fileByFile (hr : rules.Pairwise (· < ·))
    (hf : files.Pairwise (·.index < ·.index)) :
    (fileByFile fs t rules files).Pairwise Finding.Before := by
  refine List.pairwise_flatMap.mpr ⟨fun c _ => ?_, hf.imp fun hlt f hfm g hgm => ?_⟩
  · refine List.pairwise_filterMap.mpr (hr.imp fun hlt f hff g hgf => ?_)
    obtain ⟨hfi, rfl, -⟩ := finding?_eq_some_iff.mp hff
    obtain ⟨hgi, rfl, -⟩ := finding?_eq_some_iff.mp hgf
    exact .inr ⟨hfi.trans hgi.symm, hlt⟩
  · obtain ⟨r, -, hff⟩ := List.mem_filterMap.mp hfm
    obtain ⟨q, -, hgf⟩ := List.mem_filterMap.mp hgm
    have hfi := (finding?_eq_some_iff.mp hff).1
    have hgi := (finding?_eq_some_iff.mp hgf).1
    exact .inl (by omega)

theorem length_fileByFile_le (rules : List Rule) (files : List Candidate) :
    (fileByFile fs t rules files).length ≤ files.length * rules.length := by
  induction files with
  | nil => simp [fileByFile]
  | cons c rest ih =>
    have hc := List.length_filterMap_le (finding? fs t c) rules
    rw [fileByFile, List.flatMap_cons, ← fileByFile, List.length_append, List.length_cons,
      Nat.succ_mul]
    omega

end

/-! ## The reference report -/

/-- The report of a survey, without an engine, threads or an order of arrival. -/
def reference (fs : FileSystem) (t : TabSize) (o : Options) (paths : List Path) : Survey :=
  let rules := Rule.normalize o.rules
  let files := candidates fs o.maxFileSize paths
  let findings := fileByFile fs t rules files
  ⟨findings,
    { filesChecked := files.length
      filesSkipped := paths.countP (oversized fs o.maxFileSize)
      checksRun := files.length * rules.length
      failures := findings.length }⟩

theorem increasing_reference (fs : FileSystem) (t : TabSize) (o : Options) (paths : List Path) :
    (reference fs t o paths).findings.Pairwise Finding.Before :=
  pairwise_fileByFile (Rule.pairwise_normalize o.rules) pairwise_candidates

end Survey

end TextHygiene
