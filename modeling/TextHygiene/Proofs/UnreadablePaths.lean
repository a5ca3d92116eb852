import TextHygiene.Proofs.Opening
import TextHygiene.Proofs.SurveyExactness

/-! Paths that cannot be read. Every enabled rule reports such a path, with the one error that was
met; a path that is read to its end is not reported as unreadable; and what is reported of one path
does not depend on the other paths of the list. -/

namespace TextHygiene

namespace FileSystem

/-- A path cannot be opened, or it is opened and its first read fails. -/
inductive FailsAtOnce (fs : FileSystem) (p : Path) (e : IoError) : Prop
  | unopened (refused : fs.openStream p = .error e)
  | firstRead (s : Stream) (opened : fs.openStream p = .ok s) (nothing : s.bytes = [])
    (error : s.error? = some e)

/-- A path is opened and read to its end without an error. -/
def ReadsThrough (fs : FileSystem) (p : Path) : Prop :=
  ∃ s, fs.openStream p = .ok s ∧ s.error? = none

variable {fs : FileSystem} {p : Path}

/-- Nothing can be read of a path. It leads nowhere, or to no file, or to a file that is there with
its length but refuses to be opened or fails before its first byte. -/
inductive IsUnreadable (fs : FileSystem) (p : Path) : IoError → Prop
  | missing {e : IoError} (nowhere : fs.reached? p = .error e) : IsUnreadable fs p e
  | noFile {n : Node} {d : DiskEntry} (entry : fs.reached? p = .ok (n, d))
    (other : ∀ content, n ≠ .file content) : IsUnreadable fs p .isADirectory
  | refused {content : Bytes} {d : DiskEntry} {e : DiskError}
    (entry : fs.reached? p = .ok (.file content, d)) (refusal : d.readRefusal = some e) :
    IsUnreadable fs p e.toIoError
  | broken {content : Bytes} {d : DiskEntry} {n : Nat} {e : DiskError}
    (entry : fs.reached? p = .ok (.file content, d)) (opens : d.readRefusal = none)
    (fault : d.fault = some (n, e)) (first : content.take n = []) : IsUnreadable fs p e.toIoError

theorem failsAtOnce_iff {e : IoError} : fs.FailsAtOnce p e ↔ fs.IsUnreadable p e := by
  constructor
  · intro h
    have hopening := fs.opening p
    cases h with
    | unopened refused =>
      rw [refused] at hopening
      cases hopening with
      | missing nowhere => exact .missing nowhere
      | refused entry refusal => exact .refused entry refusal
    | firstRead s opened nothing error =>
      rw [opened] at hopening
      cases hopening with
      | noFile entry other =>
        cases error
        exact .noFile entry other
      | broken entry opens fault =>
        rw [DiskError.error?_stream] at error
        cases error
        exact .broken entry opens fault nothing
      | whole => cases error
  · intro h
    cases h with
    | missing nowhere => exact .unopened (Opening.missing nowhere).openStream_eq
    | noFile entry other => exact .firstRead _ (Opening.noFile entry other).openStream_eq rfl rfl
    | refused entry refusal => exact .unopened (Opening.refused entry refusal).openStream_eq
    | broken entry opens fault first =>
      exact .firstRead _ (Opening.broken entry opens fault).openStream_eq first
        (DiskError.error?_stream _ _)

/-- The path of a file has a length, whether or not the file can be read. -/
theorem length?_of_file {content : Bytes} {d : DiskEntry}
    (h : fs.reached? p = .ok (.file content, d)) : fs.length? p = some (d.fileLength content) := by
  rw [length?, h]

theorem check_of_failsAtOnce {e : IoError} (h : fs.FailsAtOnce p e) (t : TabSize) (r : Rule) :
    fs.check t r p = some ⟨p, .unreadable e⟩ := by
  refine check_eq_some_iff.mpr ⟨rfl, ?_⟩
  cases h with
  | unopened refused => exact .inl ⟨e, refused, rfl⟩
  | firstRead s opened nothing error =>
    refine .inr ⟨s, opened, ?_⟩
    rw [Rule.judge, Detector.judge, nothing, error]
    rfl

theorem cause_ne_unreadable_of_readsThrough (h : fs.ReadsThrough p) {t : TabSize} {r : Rule}
    {f : Failure} (hf : fs.check t r p = some f) (e : IoError) : f.cause ≠ .unreadable e := by
  intro hcause
  obtain ⟨s, hopen, hnone⟩ := h
  obtain ⟨-, ⟨e', herror, -⟩ | ⟨s', hopen', hjudge⟩⟩ := check_eq_some_iff.mp hf
  · rw [hopen] at herror
    cases herror
  · obtain rfl := Except.ok.inj (hopen.symm.trans hopen')
    rw [hcause] at hjudge
    rw [Detector.error?_of_judge hjudge] at hnone
    cases hnone

end FileSystem

namespace Survey

/-- What a report says of one path of the list. -/
def findingsAt (s : Survey) (i : Nat) : List Finding := s.findings.filter (·.fileIndex = i)

theorem mem_findingsAt {s : Survey} {i : Nat} {f : Finding} :
    f ∈ s.findingsAt i ↔ f ∈ s.findings ∧ f.fileIndex = i := by
  rw [findingsAt, List.mem_filter, decide_eq_true_eq]

section

variable {fs : FileSystem} {t : TabSize} {o : Options} {paths : List Path} {i : Nat}

theorem pairwise_findingsAt_reference :
    ((reference fs t o paths).findingsAt i).Pairwise Finding.Before :=
  (increasing_reference fs t o paths).filter _

theorem mem_findingsAt_reference {f : Finding} :
    f ∈ (reference fs t o paths).findingsAt i ↔ f.fileIndex = i ∧
      ∃ p, paths[i]? = some p ∧ ¬ IsSkipped fs o.maxFileSize p ∧ f.rule ∈ o.rules ∧
        fs.check t f.rule p = some f.failure := by
  rw [mem_findingsAt, mem_findings_reference, and_comm]
  refine and_congr_right ?_
  rintro rfl
  exact Iff.rfl

/-- Every enabled rule reports a path that fails at once, in the fixed order of the rules. -/
theorem findingsAt_reference_of_failsAtOnce {p : Path} {e : IoError} (hget : paths[i]? = some p)
    (hskip : ¬ IsSkipped fs o.maxFileSize p) (h : fs.FailsAtOnce p e) :
    (reference fs t o paths).findingsAt i =
      (Rule.normalize o.rules).map fun r => ⟨i, r, ⟨p, .unreadable e⟩⟩ := by
  -- Both lists are in strict order, so they are equal when they have the same members.
  refine Finding.eq_of_mem_iff pairwise_findingsAt_reference ?_ fun f => ?_
  · exact List.pairwise_map.mpr ((Rule.pairwise_normalize o.rules).imp fun hlt => .inr ⟨rfl, hlt⟩)
  · rw [mem_findingsAt_reference, List.mem_map]
    constructor
    · rintro ⟨rfl, q, hq, -, hr, hcheck⟩
      obtain rfl := Option.some.inj (hget.symm.trans hq)
      rw [FileSystem.check_of_failsAtOnce h] at hcheck
      exact ⟨f.rule, Rule.mem_normalize.mpr hr, by rw [Option.some.inj hcheck]⟩
    · rintro ⟨r, hr, rfl⟩
      exact ⟨rfl, p, hget, hskip, Rule.mem_normalize.mp hr, FileSystem.check_of_failsAtOnce h t r⟩

/-- What is reported of a path depends on no other path of the list. -/
theorem findingsAt_reference_congr {paths' : List Path} (h : paths'[i]? = paths[i]?) :
    (reference fs t o paths').findingsAt i = (reference fs t o paths).findingsAt i := by
  refine Finding.eq_of_mem_iff pairwise_findingsAt_reference pairwise_findingsAt_reference ?_
  intro f
  rw [mem_findingsAt_reference, mem_findingsAt_reference, h]

end

/-- Paths that cannot be read do not end a survey. Unless it is left out for its length, which a
file has also where it cannot be opened, a path that cannot be opened or fails on its first read is
reported by each enabled rule once, in the fixed order and with the one error that was met. No error
is reported for a path that is read to its end, and another path in the place of one changes nothing
for the others. -/
theorem unreadable_paths_are_reported_and_not_fatal (fs : FileSystem) (o : Options)
    (ht : 0 < o.tabSize) :
    ∃ report : List Path → Survey,
      (∀ (host : Host) (engine : Engine) (threads : Option Nat) (paths : List Path),
        host.IsComplete →
        fs.survey host { o with engine := engine, threads := threads } paths =
          .ok (report paths)) ∧
      (∀ p e, fs.FailsAtOnce p e ↔ fs.IsUnreadable p e) ∧
      (∀ p content d, fs.reached? p = .ok (.file content, d) →
        fs.length? p = some (d.fileLength content)) ∧
      (∀ paths i p e, paths[i]? = some p → ¬ IsSkipped fs o.maxFileSize p → fs.FailsAtOnce p e →
        ∃ rules : List Rule, rules.Pairwise (· < ·) ∧ (∀ r, r ∈ rules ↔ r ∈ o.rules) ∧
          (report paths).findingsAt i = rules.map fun r => ⟨i, r, ⟨p, .unreadable e⟩⟩) ∧
      (∀ paths i p, paths[i]? = some p → fs.ReadsThrough p →
        ∀ f ∈ (report paths).findingsAt i, ∀ e, f.failure.cause ≠ .unreadable e) ∧
      ∀ (paths : List Path) (i : Nat) (q : Path) (j : Nat), j ≠ i →
        (report (paths.set i q)).findingsAt j = (report paths).findingsAt j := by
  let t : TabSize := ⟨o.tabSize, ht⟩
  refine ⟨reference fs t o, ?_, fun p e => FileSystem.failsAtOnce_iff,
    fun p content d => FileSystem.length?_of_file, ?_, ?_, ?_⟩
  · intro host engine threads paths hh
    let o' := { o with engine := engine, threads := threads }
    exact survey_eq_reference hh fs (o := o') (t := t) rfl paths
  · intro paths i p e hget hskip h
    exact ⟨Rule.normalize o.rules, Rule.pairwise_normalize o.rules, fun r => Rule.mem_normalize,
      findingsAt_reference_of_failsAtOnce hget hskip h⟩
  · intro paths i p hget hread f hf
    obtain ⟨-, q, hq, -, -, hcheck⟩ := mem_findingsAt_reference.mp hf
    obtain rfl := Option.some.inj (hget.symm.trans hq)
    exact FileSystem.cause_ne_unreadable_of_readsThrough hread hcheck
  · intro paths i q j hne
    exact findingsAt_reference_congr (List.getElem?_set_ne hne.symm)

def longText : Bytes := List.replicate 200 0x61

/-- A file that is whole, a file of 200 bytes that cannot be opened, one of which nothing can be
read, and a folder. -/
def damagedTree : FileSystem where
  root := .folder
    [([0x61], .file [0x09, 0x0A]), ([0x62], .file longText),
      ([0x63], .file [0x09, 0x0A]), ([0x64], .folder [])]
  current := []
  disk loc :=
    if loc = [[0x62]] then { readRefusal := some .permissionDenied }
    else if loc = [[0x63]] then { fault := some (0, .failedRead) }
    else { folderLength := 40 }

/-- The entries of the damaged tree and a path that leads nowhere, with a limit of 200 bytes. Each
but the whole file is reported by both rules, the file that cannot be opened among them; with a
limit of 100 bytes it is left out for its length. The broken file is reported as before when the
missing path is replaced. -/
theorem damagedTree_is_reported :
    let paths : List Path := [[0x65], [0x64], [0x62], [0x63], [0x61]]
    let o := { sampleOptions with maxFileSize := some 200 }
    let both (i : Nat) (p : Path) (e : IoError) : List Finding :=
      [⟨i, .tabs, ⟨p, .unreadable e⟩⟩, ⟨i, .finalNewline, ⟨p, .unreadable e⟩⟩]
    (0 < o.tabSize ∧ lastFirst.IsComplete ∧ Host.IsComplete {} ∧
      (∀ p ∈ paths, ¬ IsSkipped damagedTree o.maxFileSize p) ∧
      damagedTree.FailsAtOnce [0x65] .notFound ∧ damagedTree.FailsAtOnce [0x64] .isADirectory ∧
      damagedTree.FailsAtOnce [0x62] DiskError.permissionDenied.toIoError ∧
      damagedTree.FailsAtOnce [0x63] DiskError.failedRead.toIoError ∧
      damagedTree.ReadsThrough [0x61]) ∧
    damagedTree.length? [0x62] = some 200 ∧ IsSkipped damagedTree (some 100) [0x62] ∧
    ∃ s s' : Survey,
      damagedTree.survey lastFirst { o with engine := .fused, threads := none } paths = .ok s ∧
      damagedTree.survey {} { o with engine := .perRule, threads := some 1 }
        (paths.set 0 [0x61]) = .ok s' ∧
      s.findingsAt 0 = both 0 [0x65] .notFound ∧ s.findingsAt 1 = both 1 [0x64] .isADirectory ∧
      s.findingsAt 2 = both 2 [0x62] DiskError.permissionDenied.toIoError ∧
      s.findingsAt 3 = both 3 [0x63] DiskError.failedRead.toIoError ∧
      (∀ f ∈ s.findingsAt 4, ∀ e, f.failure.cause ≠ .unreadable e) ∧
      s'.findingsAt 3 = s.findingsAt 3 := by
  intro paths o both
  have hskip : ∀ p ∈ paths, ¬ IsSkipped damagedTree o.maxFileSize p := by decide +kernel
  obtain ⟨report, hrun, hcauses, hlength, hfails, hreads, hset⟩ :=
    unreadable_paths_are_reported_and_not_fatal damagedTree o (by decide)
  have hmissing : damagedTree.FailsAtOnce [0x65] .notFound := (hcauses _ _).mpr (.missing rfl)
  have hfolder : damagedTree.FailsAtOnce [0x64] .isADirectory :=
    (hcauses _ _).mpr (.noFile (n := .folder []) rfl fun _ h => by cases h)
  have hlisted : damagedTree.reached? [0x62] =
      .ok (.file longText, { readRefusal := some .permissionDenied }) := rfl
  have hlong : damagedTree.length? [0x62] = some 200 :=
    (hlength _ _ _ hlisted).trans (congrArg some List.length_replicate)
  have hlocked : damagedTree.FailsAtOnce [0x62] DiskError.permissionDenied.toIoError :=
    (hcauses _ _).mpr (.refused hlisted rfl)
  have hopened : damagedTree.reached? [0x63] =
      .ok (.file [0x09, 0x0A], { fault := some (0, .failedRead) }) := rfl
  have hbroken : damagedTree.FailsAtOnce [0x63] DiskError.failedRead.toIoError :=
    (hcauses _ _).mpr (.broken hopened rfl rfl rfl)
  have hread : damagedTree.ReadsThrough [0x61] := ⟨_, rfl, rfl⟩
  have hboth : ∀ i p e, paths[i]? = some p → damagedTree.FailsAtOnce p e →
      (report paths).findingsAt i = both i p e := by
    intro i p e hget h
    obtain ⟨rules, hlt, hmem, hfound⟩ :=
      hfails paths i p e hget (hskip p (List.mem_of_getElem? hget)) h
    have hrules : rules = [.tabs, .finalNewline] := Rule.eq_normalize_of_pairwise hlt hmem
    rw [hfound, hrules]
    rfl
  exact ⟨⟨by decide, lastFirst_isComplete, Host.isComplete_default, hskip, hmissing, hfolder,
    hlocked, hbroken, hread⟩, hlong, ⟨100, 200, rfl, hlong, by decide⟩, report paths,
    report (paths.set 0 [0x61]), hrun lastFirst .fused none paths lastFirst_isComplete,
    hrun {} .perRule (some 1) _ Host.isComplete_default, hboth 0 _ _ rfl hmissing,
    hboth 1 _ _ rfl hfolder, hboth 2 _ _ rfl hlocked, hboth 3 _ _ rfl hbroken,
    hreads paths 4 _ rfl hread, hset paths 0 _ 3 (by decide)⟩

end Survey

end TextHygiene
