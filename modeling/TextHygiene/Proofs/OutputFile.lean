import TextHygiene.Proofs.CheckSteps
import TextHygiene.Proofs.FoundPaths

/-! A check that reports to a file. The file is created, or emptied, before the check looks at any
file, so that what it holds in the end is the report on a tree in which it is empty. That is the
report which would have been printed where the check does not find the file itself. -/

namespace TextHygiene

namespace FileSystem

variable {fs fs' : FileSystem} {p : Path}

section

variable (h : (fs'.reached? p).map (·.map Node.bare id) = (fs.reached? p).map (·.map Node.bare id))
include h

/-- What is opened and read, and how long it is listed, is told by the node without its entries and
by the disk. -/
theorem openStream_congr : fs'.openStream p = fs.openStream p := by
  rw [openStream, openStream]
  generalize fs'.reached? p = r', fs.reached? p = r at h
  rcases r with e | ⟨n, d⟩ <;> rcases r' with e' | ⟨n', d'⟩
  · exact congrArg Except.error (Except.error.inj h)
  · cases h
  · cases h
  · cases n <;> cases n' <;> cases h <;> rfl

theorem length?_congr : fs'.length? p = fs.length? p := by
  rw [length?, length?]
  generalize fs'.reached? p = r', fs.reached? p = r at h
  rcases r with e | ⟨n, d⟩ <;> rcases r' with e' | ⟨n', d'⟩
  · rfl
  · cases h
  · cases h
  · cases n <;> cases n' <;> cases h <;> rfl

end

end FileSystem

namespace Survey

variable {fs fs' : FileSystem} {paths : List Path}

/-- A survey reads no more of a tree than what its paths lead to. -/
theorem reference_congr_of_entries
    (h : ∀ p ∈ paths,
      (fs'.reached? p).map (·.map Node.bare id) = (fs.reached? p).map (·.map Node.bare id))
    (t : TabSize) (o : Options) : reference fs' t o paths = reference fs t o paths := by
  have hlarge : ∀ p ∈ paths, oversized fs' o.maxFileSize p = oversized fs o.maxFileSize p := by
    intro p hp
    simp only [oversized, FileSystem.length?_congr (h p hp)]
  have hcount : paths.countP (oversized fs' o.maxFileSize) =
      paths.countP (oversized fs o.maxFileSize) :=
    List.countP_congr fun p hp => by rw [hlarge p hp]
  have hfiles : candidates fs' o.maxFileSize paths = candidates fs o.maxFileSize paths := by
    refine List.filterMap_congr ?_
    rintro ⟨p, i⟩ hp
    dsimp only
    rw [hlarge p (List.mem_of_getElem? (List.mem_zipIdx_iff_getElem?.mp hp))]
  have hfindings : ∀ rules, fileByFile fs' t rules (candidates fs o.maxFileSize paths) =
      fileByFile fs t rules (candidates fs o.maxFileSize paths) := by
    intro rules
    refine List.flatMap_congr fun c hc => ?_
    have hp := List.mem_of_getElem? (mem_candidates.mp hc).1
    refine List.filterMap_congr fun r _ => ?_
    rw [finding?, finding?, FileSystem.check, FileSystem.check,
      FileSystem.openStream_congr (h _ hp)]
  rw [reference, reference, hcount, hfiles, hfindings]

end Survey

namespace Command

/-- The file at a place is none that a check finds: it adds nothing to what is found, and none of
the paths that are found leads to it. -/
def IsOutside (fs : FileSystem) (o : Options) (input : Path) (place : Location) : Prop :=
  ∀ p ∈ (fs.putFile place []).discover o.extensions input,
    p ∈ fs.discover o.extensions input ∧ fs.locate p ≠ .ok place

theorem found_putFile_of_isOutside {fs : FileSystem} (hfs : fs.root.WellFormed) {place : Location}
    (hplace : fs.root.IsPlace place) {o : Options} {input : Path}
    (h : IsOutside fs o input place) (t : TabSize) :
    found (fs.putFile place []) t o input = found fs t o input := by
  have hdiscover := FileSystem.discover_putFile_eq hfs hplace [] fun p hp => (h p hp).1
  rw [found, found, hdiscover]
  refine Survey.reference_congr_of_entries (fun p hp => ?_) t o
  have hother := (h p (hdiscover.symm ▸ hp)).2
  exact FileSystem.bare_reached?_putFile hplace []
    (FileSystem.locate_ne_notFound_of_mem_discover hfs hp) hother

/-- A check to a file prints nothing, and writes to the file what would be printed on a tree that
has the file, and has it empty. The file is a regular one, or new. Where it is none that the check
finds, what it holds is what would be printed without it, and so is the exit code. A check that is
refused before the file is created ends as it does without the file. -/
theorem output_file_holds_report (texts : Texts) {host : Survey.Host} (hh : host.IsComplete)
    {fs : FileSystem} (hfs : fs.root.WellFormed) {arguments arguments' : List Argument}
    {a : CheckArguments} {output : Path} (hargs : Invocation.ofArguments arguments = .check a)
    (hprint : a.output = none)
    (hargs' : Invocation.ofArguments arguments' = .check { a with output := some output }) :
    (∀ e, options fs a = .error e → run texts host fs arguments' = run texts host fs arguments) ∧
    ∀ o place, options fs a = .ok o → fs.target output = .ok place →
      let printed := checkToStdout host (fs.putFile place []) o (input a)
      (fs.root.at? place = none ∨ ∃ old, fs.root.at? place = some (.file old)) ∧
      (run texts host fs arguments').stdout = [] ∧ (run texts host fs arguments').errors = [] ∧
      (run texts host fs arguments').code = printed.code ∧
      (run texts host fs arguments').files = fs.putFile place printed.stdout ∧
      (run texts host fs arguments').files.node? output = .ok (.file printed.stdout) ∧
      (IsOutside fs o (input a) place →
        (run texts host fs arguments').code = (run texts host fs arguments).code ∧
        (run texts host fs arguments').files.node? output =
          .ok (.file (run texts host fs arguments).stdout)) := by
  have hoptions : options fs { a with output := some output } = options fs a := rfl
  constructor
  · intro e he
    rw [run, run, hargs, hargs']
    simp only [check, hoptions, he]
  · intro o place ho htarget
    obtain ⟨hplace, hread⟩ := FileSystem.target_eq_ok htarget
    obtain ⟨t, ht⟩ := exists_tabSize_of_options ho
    have hinput : input { a with output := some output } = input a := rfl
    rw [run_eq_checkToStdout hargs ho hprint, run_eq_checkToFile hargs' (hoptions.trans ho) rfl]
    simp only [hinput, checkToFile_of_target_eq_ok hh ht htarget, checkToStdout_eq hh ht,
      FileSystem.putFile_putFile hplace]
    refine ⟨hplace.at?_eq_none_or_file, trivial, trivial, trivial, trivial, hread _,
      fun houtside => ?_⟩
    rw [found_putFile_of_isOutside hfs hplace houtside]
    exact ⟨rfl, hread _⟩

/-- A folder with a file that has a tab in it. -/
def tabFolder : FileSystem where
  root := .folder [([0x73], .folder [([0x61, 0x2E, 0x63, 0x73], .file [0x09, 0x0A])])]
  current := []

/-- A file beside the folder that is checked gets what would be printed, though its name is no
text. -/
theorem output_file_beside_tabFolder :
    let arguments := ["check", "--input", "s"].map Argument.ofString
    let output : Path := [0xFF, 0x2E, 0x63, 0x73]
    let arguments' := arguments ++ [Argument.ofString "--output", output]
    let a : CheckArguments := { input := some [0x73] }
    (Survey.Host.IsComplete {} ∧ tabFolder.root.WellFormed ∧
      Invocation.ofArguments arguments = .check a ∧ a.output = none ∧
      Invocation.ofArguments arguments' = .check { a with output := some output } ∧
      options tabFolder a = .ok .default ∧ tabFolder.target output = .ok [output] ∧
      IsOutside tabFolder .default (input a) [output]) ∧
    (run noTexts {} tabFolder arguments').stdout = [] ∧
    (run noTexts {} tabFolder arguments').code = (run noTexts {} tabFolder arguments).code ∧
    (run noTexts {} tabFolder arguments').files.node? output =
      .ok (.file (run noTexts {} tabFolder arguments).stdout) ∧
    (run noTexts {} tabFolder arguments).stdout =
      Argument.ofString "File 's/a.cs' has a tab character in line 1\n" := by
  intro arguments output arguments' a
  have hh := Survey.Host.isComplete_default
  have hfs : tabFolder.root.WellFormed :=
    ⟨by decide, by decide, ⟨by decide, by decide, trivial, trivial⟩, trivial⟩
  have hargs : Invocation.ofArguments arguments = .check a := by decide
  have hargs' : Invocation.ofArguments arguments' = .check { a with output := some output } := by
    decide
  have ho : options tabFolder { input := some [0x73] } = .ok .default := by rfl
  have htarget : tabFolder.target output = .ok [output] := rfl
  let file : Path := [0x73, 0x2F, 0x61, 0x2E, 0x63, 0x73]
  have hbefore : tabFolder.discover Settings.defaultExtensions (input a) = [file] := by cbv
  have hafter : (tabFolder.putFile [output] []).discover Settings.defaultExtensions (input a) =
      [file] := by cbv
  have houtside : IsOutside tabFolder .default (input a) [output] := by
    intro p hp
    obtain rfl := List.mem_singleton.mp (hafter ▸ hp)
    exact ⟨hbefore.symm ▸ List.mem_singleton_self _, by decide⟩
  have ht : Options.default.tabSize = Settings.defaultTabSize.width := rfl
  have hprinted : (run noTexts {} tabFolder arguments).stdout =
      Argument.ofString "File 's/a.cs' has a tab character in line 1\n" := by
    have hfindings : (found tabFolder Settings.defaultTabSize .default (input a)).findings =
        [⟨0, .tabs, ⟨file, .fault (.tabCharacter 1)⟩⟩] := by cbv
    rw [run_eq_checkToStdout hargs ho rfl, checkToStdout_eq hh ht]
    dsimp only
    rw [hfindings]
    decide
  obtain ⟨-, hcreated⟩ := output_file_holds_report noTexts hh hfs hargs rfl hargs'
  obtain ⟨-, hstdout, -, -, -, -, hsame⟩ := hcreated _ _ ho htarget
  obtain ⟨hcode, hfile⟩ := hsame houtside
  exact ⟨⟨hh, hfs, hargs, rfl, hargs', ho, htarget, houtside⟩, hstdout, hcode, hfile, hprinted⟩

/-- It is not the case that a check does as well to a file as without: where nothing is to be
checked, a file that the check finds makes it fail. -/
theorem output_file_may_be_checked_itself :
    ¬ ∀ (texts : Texts) (host : Survey.Host) (fs : FileSystem)
        (arguments arguments' : List Argument) (a : CheckArguments) (output : Path) (o : Options)
        (place : Location),
      host.IsComplete → fs.root.WellFormed → Invocation.ofArguments arguments = .check a →
      a.output = none →
      Invocation.ofArguments arguments' = .check { a with output := some output } →
      options fs a = .ok o → fs.target output = .ok place →
      (run texts host fs arguments').code = (run texts host fs arguments).code ∧
      (run texts host fs arguments').files.node? output =
        .ok (.file (run texts host fs arguments).stdout) ∧
      (run texts host fs arguments').stdout = [] := by
  intro h
  have hh := Survey.Host.isComplete_default
  have hfs : FileSystem.empty.root.WellFormed :=
    ⟨by decide, by decide, ⟨by decide, trivial⟩, trivial⟩
  have hargs : Invocation.ofArguments (["check"].map Argument.ofString) = .check {} := by decide
  have hargs' : Invocation.ofArguments (["check", "--output", "r.cs"].map Argument.ofString) =
      .check { output := some (Path.ofString "r.cs") } := by decide
  have ho : options .empty {} = .ok .default := rfl
  let place : Location := [Path.ofString "work", Path.ofString "r.cs"]
  have htarget : FileSystem.empty.target (Path.ofString "r.cs") = .ok place := rfl
  have ht : Options.default.tabSize = Settings.defaultTabSize.width := rfl
  have hbefore : exitCode (found .empty Settings.defaultTabSize .default (input {})).tally = 0 := by
    cbv
  have hafter :
      exitCode (found (FileSystem.empty.putFile place []) Settings.defaultTabSize .default
        (input {})).tally = 1 := by cbv
  obtain ⟨hcode, -⟩ := h noTexts {} .empty _ _ {} (Path.ofString "r.cs") .default place hh hfs
    hargs rfl hargs' ho htarget
  rw [run_eq_checkToStdout hargs ho rfl, run_eq_checkToFile hargs' ho rfl,
    checkToFile_of_target_eq_ok hh ht htarget, checkToStdout_eq hh ht] at hcode
  have hinput : input { output := some (Path.ofString "r.cs") } = input {} := rfl
  dsimp only at hcode
  rw [hbefore, hinput, hafter] at hcode
  cases hcode

end Command

end TextHygiene
