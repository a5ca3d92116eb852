import TextHygiene.Proofs.OutputFile

/-! What a run leaves of the files that it finds. Whatever the command line says and however the run
ends, the tree differs at most in the file that the output option leads to; without that option it
does not differ at all, and the same command does the same again. -/

namespace TextHygiene

namespace Node

/-- A tree that comes from another one by writing at most one file: nothing is taken away, links and
the files elsewhere keep what they hold, and only that file can be new. -/
structure DiffersOnlyAt (place? : Option Location) (before after : Node) : Prop where
  kept : ∀ loc content, before.at? loc = some (.file content) → some loc ≠ place? →
    after.at? loc = some (.file content)
  written : ∀ loc content, before.at? loc = some (.file content) →
    ∃ content', after.at? loc = some (.file content')
  links : ∀ loc target, before.at? loc = some (.link target) → after.at? loc = some (.link target)
  folders : ∀ loc es, before.at? loc = some (.folder es) → ∃ es', after.at? loc = some (.folder es')
  created : ∀ loc n, before.at? loc = none → after.at? loc = some n →
    some loc = place? ∧ ∃ content, n = file content

theorem DiffersOnlyAt.refl (place? : Option Location) (n : Node) : DiffersOnlyAt place? n n where
  kept _ _ h _ := h
  written _ content h := ⟨content, h⟩
  links _ _ h := h
  folders _ es h := ⟨es, h⟩
  created loc m hnone hsome := by
    rw [hnone] at hsome
    cases hsome

namespace IsPlace

variable {root : Node} {place loc : Location} (h : IsPlace root place)
include h

/-- Nothing but the file is new. -/
theorem eq_place_of_new {content : Bytes} {n : Node} (hnone : root.at? loc = none)
    (hsome : (root.put place (file content)).at? loc = some n) : loc = place ∧ n = file content := by
  by_cases hloc : loc = place
  · rw [hloc, h.at?_put_self] at hsome
    exact ⟨hloc, (Option.some.inj hsome).symm⟩
  · have hbare := h.bare_at?_put content hloc
    rw [hnone, hsome] at hbare
    cases hbare

theorem differsOnlyAt_put (content : Bytes) :
    DiffersOnlyAt (some place) root (root.put place (file content)) where
  kept loc old hfile hloc :=
    h.at?_put_of_ne content (fun heq => hloc (congrArg some heq)) hfile rfl
  written loc old hfile := h.exists_file_put content hfile
  links loc target hlink :=
    h.at?_put_of_ne content (h.ne_place_of_at? hlink fun _ heq => by cases heq) hlink rfl
  folders loc es hfolder := h.exists_folder_put content hfolder
  created loc n hnone hsome := by
    obtain ⟨rfl, rfl⟩ := h.eq_place_of_new hnone hsome
    exact ⟨rfl, content, rfl⟩

end IsPlace

end Node

namespace Command

variable {texts : Texts} {host host' : Survey.Host} {fs : FileSystem} {arguments : List Argument}

/-- The location that the output option of a command line leads to, if it has that option. -/
def outputPlace? (fs : FileSystem) (arguments : List Argument) : Option Location :=
  match Invocation.ofArguments arguments with
  | .check a => a.output.bind fun p => (fs.target p).toOption
  | _ => none

theorem files_checkToStdout (host : Survey.Host) (fs : FileSystem) (o : Options) (input : Path) :
    (checkToStdout host fs o input).files = fs := by
  unfold checkToStdout
  split <;> rfl

/-- A check to a file writes no other file, whatever it comes to. -/
theorem files_checkToFile (host : Survey.Host) (fs : FileSystem) (o : Options) (input output : Path) :
    (checkToFile host fs o input output).files = fs ∨ ∃ place content,
      fs.target output = .ok place ∧ (checkToFile host fs o input output).files =
        fs.putFile place content := by
  cases htarget : fs.target output with
  | error e => exact .inl (by rw [checkToFile_of_target_eq_error htarget])
  | ok place =>
    obtain ⟨hplace, -⟩ := FileSystem.target_eq_ok htarget
    refine .inr ⟨place, (((fs.putFile place []).surveyInto host o input {}).2).written, rfl, ?_⟩
    rw [← FileSystem.putFile_putFile hplace [], checkToFile, htarget]
    dsimp only
    split <;> simp [*]

theorem files_run (texts : Texts) (host : Survey.Host) (fs : FileSystem)
    (arguments : List Argument) :
    (run texts host fs arguments).files = fs ∨ ∃ place content,
      outputPlace? fs arguments = some place ∧ fs.root.IsPlace place ∧
      (run texts host fs arguments).files = fs.putFile place content := by
  cases hargs : Invocation.ofArguments arguments with
  | check a =>
    rw [run, hargs]
    dsimp only [check]
    cases options fs a with
    | error e => exact .inl rfl
    | ok o =>
      cases hout : a.output with
      | none => exact .inl (files_checkToStdout host fs o (input a))
      | some p =>
        obtain hsame | ⟨place, content, htarget, hfiles⟩ :=
          files_checkToFile host fs o (input a) p
        · exact .inl hsame
        · refine .inr ⟨place, content, ?_, (FileSystem.target_eq_ok htarget).1, hfiles⟩
          simp only [outputPlace?, hargs, hout, Option.bind_some, htarget, Except.toOption]
  | rules => exact .inl (by rw [run, hargs])
  | version => exact .inl (by rw [run, hargs])
  | help topic => exact .inl (by rw [run, hargs])
  | misuse => exact .inl (by rw [run, hargs])

/-- A run does not depend on the number of processors or on the order in which results arrive. -/
theorem run_eq_of_isComplete (texts : Texts) (hh : host.IsComplete) (hh' : host'.IsComplete)
    (fs : FileSystem) (arguments : List Argument) :
    run texts host' fs arguments = run texts host fs arguments := by
  cases hargs : Invocation.ofArguments arguments with
  | check a =>
    rw [run, run, hargs]
    dsimp only [check]
    cases ho : options fs a with
    | error e => rfl
    | ok o =>
      obtain ⟨t, ht⟩ := exists_tabSize_of_options ho
      cases a.output with
      | none => exact (checkToStdout_eq hh' ht).trans (checkToStdout_eq hh ht).symm
      | some p =>
        dsimp only
        cases htarget : fs.target p with
        | error e =>
          rw [checkToFile_of_target_eq_error htarget, checkToFile_of_target_eq_error htarget]
        | ok place =>
          rw [checkToFile_of_target_eq_ok hh' ht htarget, checkToFile_of_target_eq_ok hh ht htarget]
  | rules => rw [run, run, hargs]
  | version => rw [run, run, hargs]
  | help topic => rw [run, run, hargs]
  | misuse => rw [run, run, hargs]

theorem outputPlace?_eq_none {arguments : List Argument}
    (h : ∀ a, Invocation.ofArguments arguments = .check a → a.output = none) (fs : FileSystem) :
    outputPlace? fs arguments = none := by
  unfold outputPlace?
  split
  · rename_i hargs
    rw [h _ hargs, Option.bind_none]
  · rfl

/-- A run writes at most the file that its output option leads to, whatever its arguments and its
outcome are. Without that option the files are as they were, and the same command does the same
again. -/
theorem run_writes_at_most_its_output (texts : Texts) (host : Survey.Host) (fs : FileSystem)
    (arguments : List Argument) :
    (run texts host fs arguments).files.current = fs.current ∧
    fs.root.DiffersOnlyAt (outputPlace? fs arguments) (run texts host fs arguments).files.root ∧
    ((∀ a, Invocation.ofArguments arguments = .check a → a.output = none) →
      (run texts host fs arguments).files = fs ∧
      ∀ host', host.IsComplete → host'.IsComplete →
        run texts host' (run texts host fs arguments).files arguments = run texts host fs arguments) := by
  obtain hsame | ⟨place, content, hplace?, hplace, hfiles⟩ := files_run texts host fs arguments
  · rw [hsame]
    refine ⟨rfl, .refl _ _, fun _ => ⟨rfl, fun host' hh hh' => ?_⟩⟩
    exact run_eq_of_isComplete texts hh hh' fs arguments
  · rw [hfiles, hplace?]
    refine ⟨rfl, hplace.differsOnlyAt_put content, fun hprint => ?_⟩
    rw [outputPlace?_eq_none hprint] at hplace?
    cases hplace?

/-- The file with the tab keeps it when the report goes to a file beside its folder; and two checks
that print their report, one of them on four processors, do the same. -/
theorem tabFolder_is_left_alone :
    let arguments := ["check", "--input", "s"].map Argument.ofString
    let arguments' := ["check", "--input", "s", "--output", "r.cs"].map Argument.ofString
    let loc : Location := [[0x73], [0x61, 0x2E, 0x63, 0x73]]
    (tabFolder.root.at? loc = some (.file [0x09, 0x0A]) ∧
      outputPlace? tabFolder arguments' = some [[0x72, 0x2E, 0x63, 0x73]] ∧
      (∀ a, Invocation.ofArguments arguments = .check a → a.output = none) ∧
      Survey.Host.IsComplete {} ∧ Survey.lastFirst.IsComplete) ∧
    (run noTexts {} tabFolder arguments').files.root.at? loc = some (.file [0x09, 0x0A]) ∧
    (run noTexts {} tabFolder arguments).files = tabFolder ∧
    run noTexts Survey.lastFirst (run noTexts {} tabFolder arguments).files arguments =
      run noTexts {} tabFolder arguments := by
  intro arguments arguments' loc
  have hfile : tabFolder.root.at? loc = some (.file [0x09, 0x0A]) := rfl
  have hargs : Invocation.ofArguments arguments = .check { input := some [0x73] } := by decide
  have hargs' : Invocation.ofArguments arguments' =
      .check { input := some [0x73], output := some (Path.ofString "r.cs") } := by decide
  have hplace : outputPlace? tabFolder arguments' = some [[0x72, 0x2E, 0x63, 0x73]] := by
    rw [outputPlace?, hargs']
    rfl
  have hprint : ∀ a, Invocation.ofArguments arguments = .check a → a.output = none := by
    intro a ha
    rw [← Invocation.check.inj (hargs.symm.trans ha)]
  have hh := Survey.Host.isComplete_default
  obtain ⟨-, -, hsame⟩ := run_writes_at_most_its_output noTexts {} tabFolder arguments
  obtain ⟨-, hdiffers, -⟩ := run_writes_at_most_its_output noTexts {} tabFolder arguments'
  obtain ⟨hfiles, hagain⟩ := hsame hprint
  refine ⟨⟨hfile, hplace, hprint, hh, Survey.lastFirst_isComplete⟩, ?_, hfiles,
    hagain _ hh Survey.lastFirst_isComplete⟩
  exact hdiffers.kept loc _ hfile (by rw [hplace]; decide)

end Command

end TextHygiene
