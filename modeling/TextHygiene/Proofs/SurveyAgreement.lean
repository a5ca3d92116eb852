import Mathlib.Data.List.Perm.Basic
import TextHygiene.Proofs.Reordering
import TextHygiene.Proofs.SharedPass
import TextHygiene.Proofs.SurveyFindings

/-! Every way to run a survey gives the reference report. The findings of a file do not depend on
the engine; the serial rounds, the shared passes and the parallel workers all end in the list that
goes file by file, up to an order that the final sort removes. -/

namespace TextHygiene

/-- One pass over a file fails where the rules fail one by one, also when it cannot be opened. -/
theorem FileSystem.failures_checkShared (fs : FileSystem) (t : TabSize) (rules : List Rule)
    (p : Path) :
    ((fs.checkShared t rules p).map fun (r, v) => (r, v.failure? p)) =
      rules.map fun r => (r, fs.check t r p) := by
  cases h : fs.openStream p with
  | error e =>
    simp only [checkShared, check, h, List.map_map]
    rfl
  | ok s =>
    simp only [checkShared, check, h, judgeShared_eq_map_judge, List.map_map]
    rfl

/-- The rounds of a check without state, as a pass over the numbered paths. -/
theorem Round.indexed_eq_filterMap (check : Path → Option Failure) (start : Nat)
    (paths : List Path) :
    (Round.indexed (m := Id) check start paths : List (Nat × Failure)) =
      (paths.zipIdx start).filterMap fun (p, i) => (check p).map (i, ·) := by
  induction paths generalizing start with
  | nil => rfl
  | cons p rest ih =>
    rw [List.zipIdx_cons, List.filterMap_cons, ← ih, Round.indexed]
    cases h : check p with
    | none =>
      simp only [h]
      rfl
    | some f =>
      simp only [h]
      rfl

theorem TabSize.ofNat?_width (t : TabSize) : ofNat? t.width = some t := dif_pos t.width_pos

namespace Survey

/-- The results of all files arrive, each once. So the threads of a check were started, and none of
them has ended early or failed in any other way. -/
def Host.IsComplete (host : Host) : Prop := ∀ n, (host.arrival n).Perm (List.range n)

/-- So they do on a host with one processor, in order. -/
theorem Host.isComplete_default : Host.IsComplete {} := fun n => List.Perm.refl (List.range n)

section

variable (fs : FileSystem) (t : TabSize) (rules : List Rule)

theorem fileFindings_eq (e : Engine) (c : Candidate) :
    fileFindings fs t rules e c = rules.filterMap (finding? fs t c) := by
  cases e with
  | perRule => rfl
  | fused =>
    have h := congrArg (List.filterMap fun (r, f?) => f?.map (Finding.mk c.index r))
      (fs.failures_checkShared t rules c.path)
    rw [List.filterMap_map, List.filterMap_map] at h
    exact h

theorem ruleFindings_eq (files : List Candidate) (r : Rule) :
    ruleFindings fs t files r = files.filterMap (finding? fs t · r) := by
  rw [ruleFindings, Round.indexed_eq_filterMap, List.filterMap_filterMap, List.zipIdx_map,
    List.filterMap_map]
  conv_rhs => rw [← List.zipIdx_map_fst 0 files, List.filterMap_map]
  refine List.filterMap_congr fun ⟨c, pos⟩ hc => ?_
  have hpos : files[pos]? = some c := List.mk_mem_zipIdx_iff_getElem?.mp hc
  simp only [Function.comp_apply, Prod.map_fst, Prod.map_snd, id_eq, finding?]
  cases fs.check t r c.path with
  | none => rfl
  | some f => simp [hpos]

/-- Going rule by rule finds the same as going file by file, in another order. -/
theorem flatMap_filterMap_perm {α β γ : Type} (g : α → β → Option γ) (as : List α) (bs : List β) :
    (bs.flatMap fun b => as.filterMap (g · b)).Perm (as.flatMap fun a => bs.filterMap (g a)) := by
  induction as with
  | nil => simp
  | cons a rest ih =>
    have hcons : ∀ b, (a :: rest).filterMap (g · b) =
        (g a b).toList ++ rest.filterMap (g · b) := fun b => by
      cases h : g a b <;> simp [h]
    simp only [hcons, List.flatMap_cons, List.filterMap_eq_flatMap_toList (g a)]
    refine (List.flatMap_append_perm bs _ _).symm.trans ?_
    exact ih.append_left _

theorem serial_perm (e : Engine) (files : List Candidate) :
    (serial fs t rules e files).Perm (fileByFile fs t rules files) := by
  cases e with
  | perRule =>
    rw [serial, funext (ruleFindings_eq fs t files)]
    exact flatMap_filterMap_perm (finding? fs t) files rules
  | fused =>
    rw [serial, funext (fileFindings_eq fs t rules .fused)]
    exact List.Perm.refl _

/-- What a worker sends for a position. -/
def resultAt (files : List Candidate) (pos : Nat) : List Finding :=
  (files[pos]?.map fun c => rules.filterMap (finding? fs t c)).getD []

theorem messages_eq (e : Engine) (files : List Candidate) {arrival : List Nat}
    (below : ∀ pos ∈ arrival, pos < files.length) :
    messages fs t rules e files arrival =
      arrival.map fun pos => (pos, resultAt fs t rules files pos) := by
  rw [messages, ← List.filterMap_eq_map']
  refine List.filterMap_congr fun pos hpos => ?_
  simp [resultAt, List.getElem?_eq_getElem (below pos hpos), fileFindings_eq]

theorem flatMap_resultAt (files : List Candidate) :
    (List.range files.length).flatMap (resultAt fs t rules files) =
      fileByFile fs t rules files := by
  induction files with
  | nil => rfl
  | cons c rest ih =>
    rw [fileByFile, List.flatMap_cons, ← fileByFile, ← ih, List.length_cons,
      List.range_succ_eq_map, List.flatMap_cons, List.flatMap_map]
    rfl

theorem parallel_eq (e : Engine) (files : List Candidate) {arrival : List Nat}
    (ha : arrival.Perm (List.range files.length)) :
    parallel fs t rules e files arrival = .ok (fileByFile fs t rules files) := by
  have below : ∀ pos ∈ arrival, pos < files.length := fun pos hpos =>
    List.mem_range.mp (ha.mem_iff.mp hpos)
  rw [parallel, messages_eq fs t rules e files below, Collector.finish_receiveAll_of_perm _ ha,
    flatMap_resultAt]
  rfl

end

theorem collect_perm {host : Host} (hh : host.IsComplete) (fs : FileSystem) (t : TabSize)
    (rules : List Rule) (o : Options) (files : List Candidate) :
    ∃ found, collect host fs t rules o files = .ok found ∧
      found.Perm (fileByFile fs t rules files) := by
  unfold collect
  split
  · exact ⟨_, parallel_eq fs t rules o.engine files (hh files.length), List.Perm.refl _⟩
  · exact ⟨_, rfl, serial_perm fs t rules o.engine files⟩

theorem survey_eq_reference {host : Host} (hh : host.IsComplete) (fs : FileSystem) {t : TabSize}
    {o : Options} (ht : o.tabSize = t.width) (paths : List Path) :
    fs.survey host o paths = .ok (reference fs t o paths) := by
  obtain ⟨found, hfound, hperm⟩ := collect_perm hh fs t (Rule.normalize o.rules) o
    (candidates fs o.maxFileSize paths)
  have hsort : Finding.sort found = (reference fs t o paths).findings :=
    Finding.sort_eq_of_perm hperm (increasing_reference fs t o paths)
  simp only [FileSystem.survey, ht, TabSize.ofNat?_width, hfound, Except.map, report, hsort]
  rfl

/-- The same paths, rules, tab size and size limit give the same findings in the same order and
the same counts, whichever engine scans, however many threads there are and in whichever order
their results arrive. -/
theorem survey_independent_of_execution (fs : FileSystem) (o : Options) (paths : List Path)
    (ht : 0 < o.tabSize) :
    ∃ s : Survey, ∀ (host : Host) (engine : Engine) (threads : Option Nat), host.IsComplete →
      fs.survey host { o with engine := engine, threads := threads } paths = .ok s := by
  refine ⟨reference fs ⟨o.tabSize, ht⟩ o paths, ?_⟩
  intro host engine threads hh
  exact survey_eq_reference hh fs rfl paths

/-- A file with a tab, a long file that cannot be opened, a link to the first and a folder. -/
def sampleTree : FileSystem where
  root := .folder
    [([0x61], .file [0x09, 0x0A]), ([0x62], .file (List.replicate 9 0x20)),
      ([0x63], .link [0x61]), ([0x64], .folder [])]
  current := []
  disk loc :=
    if loc = [[0x62]] then { readRefusal := some .permissionDenied } else { folderLength := 40 }

/-- The entries of the sample tree, one that is missing, and one once more. -/
def samplePaths : List Path := [[0x62], [0x61], [0x65], [0x63], [0x64], [0x61]]

def sampleOptions : Options where
  tabSize := 4
  rules := [.finalNewline, .tabs, .finalNewline]
  extensions := []

/-- Four processors, on which the last file is always the first to be finished. -/
def lastFirst : Host where
  processors := 4
  arrival n := (List.range n).reverse

theorem lastFirst_isComplete : lastFirst.IsComplete := fun n => List.reverse_perm (List.range n)

/-- The report on all sample paths: two rules fail where nothing can be read, and one on each
tab. -/
def sampleWhole : Survey where
  findings :=
    [⟨0, .tabs, ⟨[0x62], .unreadable DiskError.permissionDenied.toIoError⟩⟩,
      ⟨0, .finalNewline, ⟨[0x62], .unreadable DiskError.permissionDenied.toIoError⟩⟩,
      ⟨1, .tabs, ⟨[0x61], .fault (.tabCharacter 1)⟩⟩, ⟨2, .tabs, ⟨[0x65], .unreadable .notFound⟩⟩,
      ⟨2, .finalNewline, ⟨[0x65], .unreadable .notFound⟩⟩,
      ⟨3, .tabs, ⟨[0x63], .fault (.tabCharacter 1)⟩⟩,
      ⟨4, .tabs, ⟨[0x64], .unreadable .isADirectory⟩⟩,
      ⟨4, .finalNewline, ⟨[0x64], .unreadable .isADirectory⟩⟩,
      ⟨5, .tabs, ⟨[0x61], .fault (.tabCharacter 1)⟩⟩]
  tally := { filesChecked := 6, filesSkipped := 0, checksRun := 12, failures := 9 }

theorem survey_fused_in_parallel_eq_serial :
    (0 < sampleOptions.tabSize ∧ lastFirst.IsComplete ∧ Host.IsComplete {}) ∧
    sampleTree.survey lastFirst { sampleOptions with engine := .fused, threads := none }
      samplePaths = .ok sampleWhole ∧
    sampleTree.survey {} { sampleOptions with engine := .perRule, threads := some 0 }
      samplePaths = .ok sampleWhole := by
  have hwhole : reference sampleTree ⟨4, by decide⟩ sampleOptions samplePaths = sampleWhole := rfl
  obtain ⟨s, hs⟩ :=
    survey_independent_of_execution sampleTree sampleOptions samplePaths (by decide)
  have hserial := hs {} .perRule (some 0) Host.isComplete_default
  obtain rfl : s = sampleWhole := by
    rw [survey_eq_reference Host.isComplete_default sampleTree (t := ⟨4, by decide⟩) rfl] at hserial
    exact (Except.ok.inj hserial).symm.trans hwhole
  exact ⟨⟨by decide, lastFirst_isComplete, Host.isComplete_default⟩,
    hs lastFirst .fused none lastFirst_isComplete, hserial⟩

end Survey

end TextHygiene
