import Mathlib.Data.ENat.Lattice
import TextHygiene.Proofs.FirstFaults

/-! One text judged by several tab sizes. The misindented lines for the least common multiple of two
tab sizes are those for either of them, so that the line that is reported for it is the first of the
two that are reported. -/

namespace TextHygiene

/-- The least tab size that is made of whole levels of both. -/
def TabSize.lcm (t u : TabSize) : TabSize :=
  ⟨Nat.lcm t.width u.width, Nat.lcm_pos t.width_pos u.width_pos⟩

/-- The line that a verdict tells. Where it tells none, the line is infinitely far down. -/
def Verdict.line : Verdict → ℕ∞
  | .passed => ⊤
  | .failed c => (c.fault?.bind Fault.line?).elim ⊤ (↑)

theorem Line.isMisindented_lcm_iff {t u : TabSize} {line : Bytes} :
    IsMisindented (t.lcm u) line ↔ IsMisindented t line ∨ IsMisindented u line := by
  simp only [isMisindented_iff, TabSize.lcm, Nat.lcm_dvd_iff, not_and_or, and_or_left]

theorem Line.IsMisindented.of_dvd {t u : TabSize} (h : u.width ∣ t.width) {line : Bytes}
    (hline : IsMisindented u line) : IsMisindented t line := by
  rw [isMisindented_iff] at hline ⊢
  exact ⟨hline.1, fun ht => hline.2 (h.trans ht)⟩

namespace Bytes

/-- The numbers of the misindented lines of a text. -/
def misindented (t : TabSize) (d : Bytes) : Set ℕ∞ :=
  {n | ∃ i line, d.lines[i]? = some line ∧ Line.IsMisindented t line ∧ n = (i + 1 : Nat)}

theorem misindented_lcm (t u : TabSize) (d : Bytes) :
    misindented (t.lcm u) d = misindented t d ∪ misindented u d := by
  ext n
  simp only [misindented, Set.mem_union, Set.mem_ofPred_eq, Line.isMisindented_lcm_iff]
  constructor
  · rintro ⟨i, line, hi, ht | hu, hn⟩
    · exact .inl ⟨i, line, hi, ht, hn⟩
    · exact .inr ⟨i, line, hi, hu, hn⟩
  · rintro (⟨i, line, hi, ht, hn⟩ | ⟨i, line, hi, hu, hn⟩)
    · exact ⟨i, line, hi, .inl ht, hn⟩
    · exact ⟨i, line, hi, .inr hu, hn⟩

theorem misindented_subset {t u : TabSize} (h : u.width ∣ t.width) (d : Bytes) :
    misindented u d ⊆ misindented t d := by
  rintro n ⟨i, line, hi, hline, hn⟩
  exact ⟨i, line, hi, hline.of_dvd h, hn⟩

/-- The lines before the first misindented one have smaller numbers. -/
theorem isLeast_misindented {t : TabSize} {d : Bytes} {before after : List Bytes} {line : Bytes}
    (hlines : d.lines = before ++ line :: after)
    (hbefore : ∀ l ∈ before, ¬ Line.IsMisindented t l) (hline : Line.IsMisindented t line) :
    IsLeast (misindented t d) (before.length + 1 : Nat) := by
  constructor
  · refine ⟨before.length, line, ?_, hline, rfl⟩
    rw [hlines, List.getElem?_append_right le_rfl, Nat.sub_self]
    rfl
  · rintro _ ⟨i, l, hi, hl, rfl⟩
    by_contra hlt
    have hlength : i < before.length := by
      rw [not_le, Nat.cast_lt] at hlt
      omega
    rw [hlines, List.getElem?_append_left hlength] at hi
    exact hbefore l (List.mem_of_getElem? hi) hl

end Bytes

namespace Rule

theorem judge_indentation_eq_passed_iff {t : TabSize} {d : Bytes} :
    judge t ⟨d, none⟩ .indentation = .passed ↔ Bytes.misindented t d = ∅ := by
  rw [judge, Detector.start, Detector.judge_indentation_eq_passed_iff,
    Set.eq_empty_iff_forall_notMem]
  constructor
  · rintro hgood _ ⟨i, line, hi, hline, -⟩
    exact hgood line (List.mem_of_getElem? hi) hline
  · intro hnone line hmem hline
    obtain ⟨i, hi⟩ := List.mem_iff_getElem?.mp hmem
    exact hnone _ ⟨i, line, hi, hline, rfl⟩

/-- The indentation rule tells the least number of a misindented line. -/
theorem line_judge_indentation (t : TabSize) (d : Bytes) :
    (judge t ⟨d, none⟩ .indentation).line = sInf (Bytes.misindented t d) := by
  by_cases hbad : ∃ line ∈ d.lines, Line.IsMisindented t line
  · obtain ⟨before, line, after, hlines, hbefore, hline⟩ := Line.exists_first_isMisindented hbad
    rw [(Bytes.isLeast_misindented hlines hbefore hline).isGLB.sInf_eq, judge, Detector.start,
      Detector.judge_indentation_of_first hlines hbefore hline, Nat.add_comm 1]
    rfl
  · have hpass : judge t ⟨d, none⟩ .indentation = .passed :=
      (Detector.judge_indentation_eq_passed_iff t 1 d).mpr fun line hmem hline =>
        hbad ⟨line, hmem, hline⟩
    rw [judge_indentation_eq_passed_iff.mp hpass, hpass, sInf_empty]
    rfl

theorem line_judge_indentation_eq_top_iff {t : TabSize} {d : Bytes} :
    (judge t ⟨d, none⟩ .indentation).line = ⊤ ↔ judge t ⟨d, none⟩ .indentation = .passed := by
  rw [judge_indentation_eq_passed_iff, line_judge_indentation, sInf_eq_top,
    Set.eq_empty_iff_forall_notMem]
  constructor
  · rintro htop _ ⟨i, line, hi, hline, rfl⟩
    exact ENat.natCast_ne_top _ (htop _ ⟨i, line, hi, hline, rfl⟩)
  · exact fun hnone n hn => absurd hn (hnone n)

/-- For the least common multiple of two tab sizes the indentation rule reports the first of the
lines that it reports for the two, where a text that passes has no line. So a text passes for the
multiple when it passes for both; and a tab size that divides another passes what the other passes,
and reports no earlier line. -/
theorem indentation_line_of_lcm_is_first (t u : TabSize) (d : Bytes) :
    (∀ w, (judge w ⟨d, none⟩ .indentation).line = ⊤ ↔ judge w ⟨d, none⟩ .indentation = .passed) ∧
    (judge (t.lcm u) ⟨d, none⟩ .indentation).line =
      min (judge t ⟨d, none⟩ .indentation).line (judge u ⟨d, none⟩ .indentation).line ∧
    (judge (t.lcm u) ⟨d, none⟩ .indentation = .passed ↔
      judge t ⟨d, none⟩ .indentation = .passed ∧ judge u ⟨d, none⟩ .indentation = .passed) ∧
    (u.width ∣ t.width →
      (judge t ⟨d, none⟩ .indentation = .passed → judge u ⟨d, none⟩ .indentation = .passed) ∧
      (judge t ⟨d, none⟩ .indentation).line ≤ (judge u ⟨d, none⟩ .indentation).line) := by
  have hmin : (judge (t.lcm u) ⟨d, none⟩ .indentation).line =
      min (judge t ⟨d, none⟩ .indentation).line (judge u ⟨d, none⟩ .indentation).line := by
    simp only [line_judge_indentation, Bytes.misindented_lcm, sInf_union]
  refine ⟨fun w => line_judge_indentation_eq_top_iff, hmin, ?_, fun hdvd => ?_⟩
  · rw [← line_judge_indentation_eq_top_iff, hmin, min_eq_top, line_judge_indentation_eq_top_iff,
      line_judge_indentation_eq_top_iff]
  · have hle : (judge t ⟨d, none⟩ .indentation).line ≤ (judge u ⟨d, none⟩ .indentation).line := by
      rw [line_judge_indentation, line_judge_indentation]
      exact sInf_le_sInf (Bytes.misindented_subset hdvd d)
    refine ⟨fun hpass => ?_, hle⟩
    rw [← line_judge_indentation_eq_top_iff] at hpass ⊢
    exact top_le_iff.mp (hpass.symm.trans_le hle)

/-- Levels of six spaces are broken in the second line of a text and levels of four in the third, so
that levels of twelve are broken in the second. Levels of two are kept by what levels of four keep,
and are broken no earlier. -/
theorem levels_of_twelve_are_broken_in_second_line :
    let four : TabSize := ⟨4, by decide⟩
    let six : TabSize := ⟨6, by decide⟩
    let two : TabSize := ⟨2, by decide⟩
    let kept : Bytes := [0x61, 0x0A, 0x20, 0x20, 0x20, 0x20, 0x62]
    let d : Bytes := kept ++ [0x0A, 0x20, 0x20, 0x63]
    (judge (four.lcm six) ⟨d, none⟩ .indentation).line = 2 ∧
      (two.width ∣ four.width ∧ judge four ⟨kept, none⟩ .indentation = .passed) ∧
      judge two ⟨kept, none⟩ .indentation = .passed ∧
      3 ≤ (judge two ⟨d, none⟩ .indentation).line := by
  intro four six two kept d
  have hfour : judge four ⟨d, none⟩ .indentation = .failed (.fault (.badIndentation 4 3)) := by
    decide
  have hsix : judge six ⟨d, none⟩ .indentation = .failed (.fault (.badIndentation 6 2)) := by
    decide
  have hdvd : two.width ∣ four.width := by decide
  have hpass : judge four ⟨kept, none⟩ .indentation = .passed := by decide
  have hmin : (judge (four.lcm six) ⟨d, none⟩ .indentation).line = min 3 2 := by
    rw [(indentation_line_of_lcm_is_first four six d).2.1, hfour, hsix]
    rfl
  have hle : 3 ≤ (judge two ⟨d, none⟩ .indentation).line := by
    refine le_of_eq_of_le ?_ ((indentation_line_of_lcm_is_first four two d).2.2.2 hdvd).2
    rw [hfour]
    rfl
  have hkept := (indentation_line_of_lcm_is_first four two kept).2.2.2 hdvd
  exact ⟨hmin.trans rfl, ⟨hdvd, hpass⟩, hkept.1 hpass, hle⟩

end Rule

end TextHygiene
