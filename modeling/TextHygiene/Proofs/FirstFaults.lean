import TextHygiene.Proofs.RuleMeaning

/-! The fault that a rule reports is the first one of the text. For the indentation that is the
first line which starts with spaces that make no whole number of levels, and then something else. -/

namespace TextHygiene

namespace Line

instance (line : Bytes) : Decidable (IsBlank line) :=
  List.decidableBAll (· = Byte.space) line

instance (t : TabSize) (line : Bytes) : Decidable (IsMisindented t line) :=
  decidable_of_iff (¬ IsBlank line ∧ ¬ t.width ∣ indent line) isMisindented_iff.symm

/-- Where a line is misindented, one of the misindented lines is the first. -/
theorem exists_first_isMisindented {t : TabSize} {lines : List Bytes}
    (h : ∃ line ∈ lines, IsMisindented t line) :
    ∃ before line after, lines = before ++ line :: after ∧
      (∀ l ∈ before, ¬ IsMisindented t l) ∧ IsMisindented t line := by
  obtain ⟨bad, hmem, hbad⟩ := h
  have hfound : (lines.find? fun l => decide (IsMisindented t l)).isSome :=
    List.find?_isSome.mpr ⟨bad, hmem, decide_eq_true hbad⟩
  obtain ⟨line, hline⟩ := Option.isSome_iff_exists.mp hfound
  obtain ⟨hline, before, after, heq, hbefore⟩ := List.find?_eq_some_iff_append.mp hline
  refine ⟨before, line, after, heq, fun l hl => ?_, of_decide_eq_true hline⟩
  simpa using hbefore l hl

end Line

namespace Detector

theorem run_indentation_of_isMisindented {line : Bytes} (h : Byte.lineFeed ∉ line) {u : TabSize}
    (hline : Line.IsMisindented u line) (n : Nat) :
    (indentation u n 0 true).run line = .error (.badIndentation u.width n) := by
  obtain ⟨-, hrun⟩ | ⟨hgood, -⟩ := run_indentation_line h u n
  · exact hrun
  · exact absurd hline hgood

/-- A line that is well indented is left in the state in which the next line is begun. -/
theorem judge_indentation_of_not_isMisindented {line : Bytes} (h : Byte.lineFeed ∉ line)
    {u : TabSize} (hline : ¬ Line.IsMisindented u line) (n : Nat) (rest : Bytes)
    (ending : Option IoError) :
    (indentation u n 0 true).judge ⟨line ++ Byte.lineFeed :: rest, ending⟩ =
      (indentation u (n + 1) 0 true).judge ⟨rest, ending⟩ := by
  obtain ⟨hbad, -⟩ | ⟨-, k, leading, hrun⟩ := run_indentation_line h u n
  · exact absurd hbad hline
  · rw [judge_append, hrun]
    simp only [judge_cons, feed, if_true]

/-- The lines before the first misindented one are gone through, and its number is told, whatever
comes after it. -/
theorem judge_indentation_of_first {u : TabSize} {before after : List Bytes} {line d : Bytes}
    (hlines : d.lines = before ++ line :: after)
    (hbefore : ∀ l ∈ before, ¬ Line.IsMisindented u l) (hline : Line.IsMisindented u line)
    (n : Nat) (ending : Option IoError) :
    (indentation u n 0 true).judge ⟨d, ending⟩ =
      .failed (.fault (.badIndentation u.width (n + before.length))) := by
  induction d using Bytes.lines_induction generalizing n before with
  | last only h =>
    rw [Bytes.lines_of_notMem h] at hlines
    cases before with
    | nil =>
      obtain ⟨rfl, -⟩ := List.cons.inj hlines
      rw [judge, run_indentation_of_isMisindented h hline]
      rfl
    | cons l before => cases before <;> cases hlines
  | ended first rest h ih =>
    rw [Bytes.lines_append_cons h] at hlines
    cases before with
    | nil =>
      obtain ⟨rfl, -⟩ := List.cons.inj hlines
      rw [judge_append, run_indentation_of_isMisindented h hline]
      rfl
    | cons l before =>
      obtain ⟨rfl, hrest⟩ := List.cons.inj hlines
      obtain ⟨hl, hbefore⟩ := List.forall_mem_cons.mp hbefore
      rw [judge_indentation_of_not_isMisindented h hl, ih hrest hbefore, List.length_cons,
        Nat.add_right_comm, Nat.add_assoc]

end Detector

namespace Rule

/-- The indentation rule fails a text exactly when one of its lines, the last one included where no
line feed ends it, is misindented. It reports the tab size and the number of the first such line. -/
theorem indentation_reports_first_misindented_line (t : TabSize) (d : Bytes) (p : Path) :
    ((judge t ⟨d, none⟩ .indentation).failure? p ≠ none ↔
      ∃ line ∈ d.lines, Line.IsMisindented t line) ∧
    ∀ before line after, d.lines = before ++ line :: after →
      (∀ l ∈ before, ¬ Line.IsMisindented t l) → Line.IsMisindented t line →
      (judge t ⟨d, none⟩ .indentation).failure? p =
        some ⟨p, .fault (.badIndentation t.width (before.length + 1))⟩ := by
  have hfirst : ∀ before line after, d.lines = before ++ line :: after →
      (∀ l ∈ before, ¬ Line.IsMisindented t l) → Line.IsMisindented t line →
      judge t ⟨d, none⟩ .indentation =
        .failed (.fault (.badIndentation t.width (before.length + 1))) := by
    intro before line after hlines hbefore hline
    rw [Nat.add_comm before.length]
    exact Detector.judge_indentation_of_first hlines hbefore hline 1 none
  refine ⟨⟨fun hfails => ?_, fun hbad => ?_⟩, fun before line after hlines hbefore hline => ?_⟩
  · by_contra hnone
    have hgood : ∀ line ∈ d.lines, ¬ Line.IsMisindented t line := fun line hmem hline =>
      hnone ⟨line, hmem, hline⟩
    have hpass := (Detector.judge_indentation_eq_passed_iff t 1 d).mpr hgood
    exact hfails (by rw [judge, Detector.start, hpass]; rfl)
  · obtain ⟨before, line, after, hlines, hbefore, hline⟩ := Line.exists_first_isMisindented hbad
    rw [hfirst before line after hlines hbefore hline]
    exact Option.some_ne_none _
  · rw [hfirst before line after hlines hbefore hline]
    rfl

/-- Four lines, of which the third is the first misindented one. The last one, which starts with two
spaces and a carriage return and is not ended, is misindented as well. -/
theorem third_line_is_first_misindented :
    let t : TabSize := ⟨4, by decide⟩
    let before : List Bytes := [[0x20], [0x20, 0x20, 0x20, 0x20, 0x09]]
    let line : Bytes := [0x20, 0x20, 0x20, 0x63, 0x20]
    let last : Bytes := [0x20, 0x20, 0x0D]
    let d : Bytes := Bytes.ofLines (before ++ [line]) ++ last
    (d.lines = before ++ line :: [last] ∧ (∀ l ∈ before, ¬ Line.IsMisindented t l) ∧
      Line.IsMisindented t line ∧ Line.IsMisindented t last) ∧
    (judge t ⟨d, none⟩ .indentation).failure? [0x61] =
      some ⟨[0x61], .fault (.badIndentation 4 3)⟩ := by
  intro t before line last d
  have hlines : d.lines = before ++ line :: [last] := by decide
  have hbefore : ∀ l ∈ before, ¬ Line.IsMisindented t l := by decide
  have hline : Line.IsMisindented t line := by decide
  have hlast : Line.IsMisindented t last := by decide
  have h := indentation_reports_first_misindented_line t d [0x61]
  exact ⟨⟨hlines, hbefore, hline, hlast⟩, h.2 before line [last] hlines hbefore hline⟩

end Rule

end TextHygiene
