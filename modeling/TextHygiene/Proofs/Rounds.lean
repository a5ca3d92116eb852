import TextHygiene.Proofs.SurveyLocality

/-! Rounds with a check that carries state. A round calls its check once for each path, in order, and
keeps the failures in the order of the calls. What a survey without a size limit reports of one rule
are the failures of a round of that rule. -/

namespace TextHygiene

namespace Round

/-- Numbers that are given to what is kept, and taken away again, change nothing. -/
theorem map_snd_filterMap_zipIdx {α β : Type} (g : α → Option β) (l : List α) (k : Nat) :
    ((l.zipIdx k).filterMap fun (a, i) => (g a).map (i, ·)).map Prod.snd = l.filterMap g := by
  have hsnd : ∀ e : α × Nat, ((g e.1).map (e.2, ·)).map Prod.snd = g e.1 := by
    rintro ⟨a, i⟩
    cases h : g a <;> rfl
  rw [List.map_filterMap]
  simp only [hsnd]
  conv_rhs => rw [← List.zipIdx_map_fst k l, List.filterMap_map]
  rfl

section

variable {σ : Type} {check : Path → StateM σ (Option Failure)}

/-- The calls of a round: one for each path, in order, each in the state that the call before it has
left. The answers are listed in the order of the calls. -/
inductive Calls (check : Path → StateM σ (Option Failure)) :
    σ → List Path → List (Option Failure) → σ → Prop
  | done (s : σ) : Calls check s [] [] s
  | call {s next last : σ} {p : Path} {answer : Option Failure} {rest : List Path}
    {answers : List (Option Failure)} (called : (check p).run s = (answer, next))
    (later : Calls check next rest answers last) :
    Calls check s (p :: rest) (answer :: answers) last

/-- The check with a record of the paths that it is called for. -/
def recorded (check : Path → StateM σ (Option Failure)) (p : Path) :
    StateM (σ × List Path) (Option Failure) := fun (s, seen) =>
  let (answer, next) := (check p).run s
  (answer, next, seen ++ [p])

/-- Some way the calls of a round go. -/
theorem exists_calls (check : Path → StateM σ (Option Failure)) (s : σ) (paths : List Path) :
    ∃ answers last, Calls check s paths answers last := by
  induction paths generalizing s with
  | nil => exact ⟨[], s, .done s⟩
  | cons p rest ih =>
    obtain ⟨answers, last, later⟩ := ih ((check p).run s).2
    exact ⟨((check p).run s).1 :: answers, last, .call rfl later⟩

theorem run_indexed_cons (start : Nat) (p : Path) (rest : List Path) (s : σ) :
    (indexed check start (p :: rest)).run s =
      let (answer, next) := (check p).run s
      let (later, last) := (indexed check (start + 1) rest).run next
      (match answer with
        | some f => (start, f) :: later
        | none => later, last) := rfl

theorem run_failures (paths : List Path) (s : σ) :
    (failures check paths).run s =
      let (found, last) := (indexed check 0 paths).run s
      (found.map Prod.snd, last) := rfl

/-- A round makes its calls in this way, and keeps the failures with their positions. -/
theorem Calls.run_indexed {s last : σ} {paths : List Path} {answers : List (Option Failure)}
    (h : Calls check s paths answers last) (start : Nat) :
    (indexed check start paths).run s =
      ((answers.zipIdx start).filterMap fun (answer, i) => answer.map (i, ·), last) := by
  -- The calls that are left are numbered from one more, so `start` is free.
  induction h generalizing start with
  | done s => rfl
  | @call s next last p answer rest answers called later ih =>
    rw [run_indexed_cons, called, List.zipIdx_cons, List.filterMap_cons]
    simp only [ih]
    cases answer <;> rfl

theorem Calls.run_failures {s last : σ} {paths : List Path} {answers : List (Option Failure)}
    (h : Calls check s paths answers last) :
    (failures check paths).run s = (answers.filterMap id, last) := by
  rw [Round.run_failures, h.run_indexed 0]
  exact congrArg (·, last) (map_snd_filterMap_zipIdx id answers 0)

/-- The recorded check is called as the check is. -/
theorem Calls.recorded {s last : σ} {paths : List Path} {answers : List (Option Failure)}
    (h : Calls check s paths answers last) (seen : List Path) :
    Calls (recorded check) (s, seen) paths answers (last, seen ++ paths) := by
  induction h generalizing seen with
  | done s =>
    rw [List.append_nil]
    exact .done (s, seen)
  | @call s next last p answer rest answers called later ih =>
    have hlater := ih (seen ++ [p])
    rw [List.append_assoc, List.singleton_append] at hlater
    refine .call ?_ hlater
    show Round.recorded check p (s, seen) = _
    rw [Round.recorded, called]

end

/-- A round of a check without state keeps the failures of the paths. -/
theorem failures_eq_filterMap (check : Path → Option Failure) (paths : List Path) :
    (failures (m := Id) check paths : List Failure) = paths.filterMap check := by
  show (indexed (m := Id) check 0 paths : List (Nat × Failure)).map Prod.snd = _
  rw [indexed_eq_filterMap]
  exact map_snd_filterMap_zipIdx check paths 0

end Round

namespace Survey

/-- The failures that a report tells of one rule, in the order of the report. -/
def failuresOf (s : Survey) (r : Rule) : List Failure :=
  (s.findings.filter (·.rule = r)).map (·.failure)

variable {fs : FileSystem} {t : TabSize} {o : Options} {r : Rule}

/-- Without a limit no path is left out. -/
theorem map_path_candidates (paths : List Path) :
    (candidates fs none paths).map (·.path) = paths := by
  have hkept : ∀ e : Path × Nat, (if oversized fs none e.1 then none
      else some (Candidate.mk e.2 e.1)).map (·.path) = some e.1 := by
    intro e
    rw [show oversized fs none e.1 = false from rfl]
    rfl
  rw [candidates, List.map_filterMap]
  simp only [hkept]
  rw [List.filterMap_eq_map', List.zipIdx_map_fst]

theorem fileByFile_singleton (files : List Candidate) :
    fileByFile fs t [r] files = files.filterMap (finding? fs t · r) := by
  have hone : ∀ c, [r].filterMap (finding? fs t c) = (finding? fs t c r).toList := by
    intro c
    cases h : finding? fs t c r <;> simp [h]
  rw [fileByFile, List.filterMap_eq_flatMap_toList]
  simp only [hone]

theorem failuresOf_reference (hlimit : o.maxFileSize = none) (hr : r ∈ o.rules)
    (paths : List Path) :
    (reference fs t o paths).failuresOf r = paths.filterMap (fs.check t r) := by
  have hrule : Rule.normalize (o.rules.filter (· = r)) = [r] := by
    refine (Rule.eq_normalize_of_pairwise (List.pairwise_singleton _ r) fun q => ?_).symm
    simp only [List.mem_singleton, List.mem_filter, decide_eq_true_eq]
    exact (and_iff_right_of_imp fun heq => heq ▸ hr).symm
  have hfailure : ∀ c : Candidate,
      (finding? fs t c r).map (·.failure) = fs.check t r c.path := by
    intro c
    rw [finding?]
    cases fs.check t r c.path <;> rfl
  calc (reference fs t o paths).failuresOf r
      = (fileByFile fs t [r] (candidates fs none paths)).map (·.failure) := by
        rw [failuresOf, ← findings_reference_filter fs t o (· = r), reference]
        simp only [hrule, hlimit]
    _ = ((candidates fs none paths).filterMap (finding? fs t · r)).map (·.failure) := by
        rw [fileByFile_singleton]
    _ = ((candidates fs none paths).map (·.path)).filterMap (fs.check t r) := by
        rw [List.map_filterMap, List.filterMap_map]
        simp only [hfailure]
        rfl
    _ = paths.filterMap (fs.check t r) := by rw [map_path_candidates]

end Survey

/-- A round calls its check once for each path, in order and in the state that the call before it has
left, whether that call failed or not, and returns the failures in the order of the calls. Without a
size limit, what a survey reports of an enabled rule are the failures of a round of that rule,
whichever engine scans and however many threads there are. -/
theorem Round.calls_once_in_order_and_agrees_with_survey (paths : List Path) :
    (∀ (σ : Type) (check : Path → StateM σ (Option Failure)) (s : σ),
      ∃ answers last, Calls check s paths answers last ∧
        (failures check paths).run s = (answers.filterMap id, last) ∧
        ∀ seen, (failures (recorded check) paths).run (s, seen) =
          (answers.filterMap id, last, seen ++ paths)) ∧
    ∀ (fs : FileSystem) (o : Options) (t : TabSize), o.tabSize = t.width → o.maxFileSize = none →
      ∀ host : Survey.Host, host.IsComplete →
        ∃ report, fs.survey host o paths = .ok report ∧ ∀ r ∈ o.rules,
          report.failuresOf r = failures (m := Id) (fs.check t r) paths := by
  refine ⟨fun σ check s => ?_, fun fs o t ht hlimit host hh => ?_⟩
  · obtain ⟨answers, last, hcalls⟩ := exists_calls check s paths
    exact ⟨answers, last, hcalls, hcalls.run_failures, fun seen =>
      (hcalls.recorded seen).run_failures⟩
  · refine ⟨_, Survey.survey_eq_reference hh fs ht paths, fun r hr => ?_⟩
    rw [Survey.failuresOf_reference hlimit hr, failures_eq_filterMap]

/-- A survey of the sample paths in one pass for each file, with the last file finished first, against
a round for tabs. The path that comes twice fails twice. -/
theorem Round.tabs_on_samplePaths :
    let o := { Survey.sampleOptions with engine := .fused, threads := some 3 }
    let t : TabSize := ⟨4, by decide⟩
    let tab (p : Path) : Failure := ⟨p, .fault (.tabCharacter 1)⟩
    (o.tabSize = t.width ∧ o.maxFileSize = none ∧ Survey.lastFirst.IsComplete ∧
      Rule.tabs ∈ o.rules) ∧
    ∃ report, Survey.sampleTree.survey Survey.lastFirst o Survey.samplePaths = .ok report ∧
      report.failuresOf .tabs =
        failures (m := Id) (Survey.sampleTree.check t .tabs) Survey.samplePaths ∧
      report.failuresOf .tabs = [⟨[0x62], .unreadable DiskError.permissionDenied.toIoError⟩,
        tab [0x61], ⟨[0x65], .unreadable .notFound⟩, tab [0x63],
        ⟨[0x64], .unreadable .isADirectory⟩, tab [0x61]] := by
  intro o t tab
  have hr : Rule.tabs ∈ o.rules := by decide
  obtain ⟨report, hrun, hround⟩ := (calls_once_in_order_and_agrees_with_survey Survey.samplePaths).2
    Survey.sampleTree o t rfl rfl Survey.lastFirst Survey.lastFirst_isComplete
  refine ⟨⟨rfl, rfl, Survey.lastFirst_isComplete, hr⟩, report, hrun, hround .tabs hr, ?_⟩
  rw [hround .tabs hr]
  rfl

end TextHygiene
