import TextHygiene.Proofs.RuleMeaning

/-! The texts that all rules pass are the tidy ones. The gaps that single rules leave (blank lines,
lines that are not ended, bytes after the indentation) are closed by the other rules. -/

namespace TextHygiene

theorem Line.isTidy_iff {t : TabSize} {line : Bytes} :
    IsTidy t line ↔ IsPlain line ∧ ¬ IsMisindented t line ∧ line.getLast? ≠ some Byte.space := by
  refine and_congr_right fun _ => ?_
  rw [isMisindented_iff]
  constructor
  · rintro (rfl | ⟨k, b, rest, rfl, hb, hlast⟩)
    · exact ⟨fun hmis => hmis.1 fun _ hmem => absurd hmem List.not_mem_nil, by simp⟩
    · rw [indent_replicate_append hb]
      exact ⟨fun hmis => hmis.2 (Nat.dvd_mul_left _ _), hlast⟩
  · rintro ⟨hmis, hlast⟩
    by_cases hblank : IsBlank line
    · rcases List.eq_nil_or_concat line with rfl | ⟨front, b, rfl⟩
      · exact .inl rfl
      · exact absurd (by simp [hblank b (by simp)]) hlast
    · obtain ⟨b, rest, heq, hb⟩ := exists_eq_indent_append hblank
      obtain ⟨k, hk⟩ : t.width ∣ indent line := by
        by_contra hdvd
        exact hmis ⟨hblank, hdvd⟩
      rw [hk, Nat.mul_comm] at heq
      exact .inr ⟨k, b, rest, heq, hb, hlast⟩

namespace Bytes

/-- The bytes of a text are those of its lines and line feeds. -/
theorem forall_mem_ofLines_iff {P : UInt8 → Prop} (hP : P Byte.lineFeed) {ls : List Bytes} :
    (∀ b ∈ ofLines ls, P b) ↔ ∀ l ∈ ls, ∀ b ∈ l, P b := by
  induction ls with
  | nil => simp
  | cons l rest ih =>
    rw [ofLines_cons, List.forall_mem_append, List.forall_mem_cons, List.forall_mem_cons, ih]
    exact and_congr_right fun _ => and_iff_right hP

/-- What the rules ask for, rule by rule, comes to the text being tidy. -/
theorem isTidy_iff {t : TabSize} {d : Bytes} :
    d.IsTidy t ↔ (∀ b ∈ d, b < 0x80 ∧ b ≠ Byte.tab ∧ b ≠ Byte.carriageReturn) ∧
      (∀ line ∈ d.lines, ¬ Line.IsMisindented t line) ∧
      (∀ line ∈ d.lines.dropLast, line.getLast? ≠ some Byte.space) ∧ d.finalLineFeeds = 1 := by
  have hlf : Byte.lineFeed < 0x80 ∧ Byte.lineFeed ≠ Byte.tab ∧
      Byte.lineFeed ≠ Byte.carriageReturn := by decide
  have hempty : ¬ Line.IsMisindented t [] := by simp [Line.isMisindented_iff, Line.IsBlank]
  constructor
  · rintro ⟨ls, hne, rfl, htidy, hlast⟩
    have htidy' := fun l hl => Line.isTidy_iff.mp (htidy l hl)
    have hnot : ∀ l ∈ ls, Byte.lineFeed ∉ l := fun l hl hmem => ((htidy' l hl).1 _ hmem).2.2.1 rfl
    rw [forall_mem_ofLines_iff hlf, lines_ofLines hnot, List.dropLast_concat]
    refine ⟨fun l hl b hb => ?_, fun l hl => ?_, fun l hl => (htidy' l hl).2.2,
      finalLineFeeds_eq_one_iff.mpr ⟨ls, hne, rfl, hnot, hlast⟩⟩
    · obtain ⟨hascii, htab, -, hcr⟩ := (htidy' l hl).1 b hb
      exact ⟨hascii, htab, hcr⟩
    · rcases List.mem_append.mp hl with hl | hl
      · exact (htidy' l hl).2.1
      · exact List.mem_singleton.mp hl ▸ hempty
  · rintro ⟨hbytes, hindent, htrailing, hfinal⟩
    obtain ⟨ls, hne, rfl, hnot, hlast⟩ := finalLineFeeds_eq_one_iff.mp hfinal
    rw [forall_mem_ofLines_iff hlf] at hbytes
    rw [lines_ofLines hnot] at hindent htrailing
    rw [List.dropLast_concat] at htrailing
    refine ⟨ls, hne, rfl, fun l hl => Line.isTidy_iff.mpr ⟨fun b hb => ?_, ?_, htrailing l hl⟩,
      hlast⟩
    · obtain ⟨hascii, htab, hcr⟩ := hbytes l hl b hb
      exact ⟨hascii, htab, fun e => hnot l hl (e ▸ hb), hcr⟩
    · exact hindent l (List.mem_append_left _ hl)

end Bytes

namespace Rule

theorem forall_judge_eq_passed_iff (t : TabSize) (d : Bytes) :
    (∀ r, judge t ⟨d, none⟩ r = .passed) ↔ d.IsTidy t := by
  have hbytes : (∀ b ∈ d, b < 0x80 ∧ b ≠ Byte.tab ∧ b ≠ Byte.carriageReturn) ↔
      (∀ b ∈ d, decide (b = Byte.carriageReturn) = false) ∧
        (∀ b ∈ d, decide (b = Byte.tab) = false) ∧ ∀ b ∈ d, (!Byte.isAscii b) = false := by
    simp only [Byte.isAscii, decide_eq_false_iff_not, Bool.not_eq_false', decide_eq_true_eq]
    exact ⟨fun h => ⟨fun b hb => (h b hb).2.2, fun b hb => (h b hb).2.1, fun b hb => (h b hb).1⟩,
      fun h b hb => ⟨h.2.2 b hb, h.2.1 b hb, h.1 b hb⟩⟩
  rw [Bytes.isTidy_iff, hbytes, ← Detector.judge_indentation_eq_passed_iff t 1,
    ← Detector.judge_trailingWhitespace_eq_passed_iff 1,
    ← Detector.judge_finalNewline_eq_passed_iff,
    ← Detector.looksFor_lineEndings.judge_eq_passed_iff 1,
    ← Detector.looksFor_tabs.judge_eq_passed_iff 1,
    ← Detector.looksFor_plainAscii.judge_eq_passed_iff 1]
  constructor
  · intro h
    exact ⟨⟨h .lineEndings, h .tabs, h .plainAscii⟩, h .indentation, h .trailingWhitespace,
      h .finalNewline⟩
  · rintro ⟨⟨hcr, htab, hascii⟩, hindent, htrailing, hfinal⟩ r
    cases r with
    | lineEndings => exact hcr
    | tabs => exact htab
    | indentation => exact hindent
    | trailingWhitespace => exact htrailing
    | finalNewline => exact hfinal
    | plainAscii => exact hascii

/-- A line of spaces alone is no fault of indentation, but when it is ended it has spaces before
its line feed, and when it is not the text does not end in a line feed. -/
theorem blank_line_is_caught {t : TabSize} {d line : Bytes} (hline : line ∈ d.lines)
    (hne : line ≠ []) (hblank : Line.IsBlank line) :
    judge t ⟨d, none⟩ .trailingWhitespace ≠ .passed ∨
      judge t ⟨d, none⟩ .finalNewline ≠ .passed := by
  have hspace : line.getLast? = some Byte.space := by
    rw [List.getLast?_eq_some_getLast hne, hblank _ (List.getLast_mem hne)]
  obtain ⟨ls, last, hlines, hd⟩ := Bytes.exists_lines_eq d
  rw [hlines] at hline
  rcases List.mem_append.mp hline with hmem | hmem
  · refine .inl fun hpass => ?_
    have h := (Detector.judge_trailingWhitespace_eq_passed_iff 1 d).mp hpass
    rw [hlines, List.dropLast_concat] at h
    exact h line hmem hspace
  · refine .inr fun hpass => ?_
    obtain rfl := List.mem_singleton.mp hmem
    have hnot : Byte.lineFeed ∉ line := Bytes.notMem_of_mem_split (hlines ▸ hline)
    have hzero : Bytes.finalLineFeeds (Bytes.ofLines ls ++ line) = 0 :=
      (Bytes.finalLineFeeds_ofLines_append_eq_zero_iff hnot).mpr (.inl hne)
    have hone := (Detector.judge_finalNewline_eq_passed_iff d).mp hpass
    rw [hd, hzero] at hone
    cases hone

/-- The rules together pass exactly the tidy texts. In particular a line of spaces alone, which the
indentation rule leaves out, is found by one of two other rules. -/
theorem all_pass_iff_isTidy (t : TabSize) (d : Bytes) :
    ((∀ r, judge t ⟨d, none⟩ r = .passed) ↔ d.IsTidy t) ∧
      ∀ line ∈ d.lines, line ≠ [] → (∀ b ∈ line, b = Byte.space) →
        judge t ⟨d, none⟩ .trailingWhitespace ≠ .passed ∨
          judge t ⟨d, none⟩ .finalNewline ≠ .passed :=
  ⟨forall_judge_eq_passed_iff t d, fun _ hline hne hblank => blank_line_is_caught hline hne hblank⟩

/-- A line of four spaces that is not ended: the indentation rule passes, and another one does
not. -/
theorem blank_last_line_is_caught :
    let t : TabSize := ⟨4, by decide⟩
    let d : Bytes := [0x61, 0x0A, 0x20, 0x20, 0x20, 0x20]
    let line : Bytes := [0x20, 0x20, 0x20, 0x20]
    (line ∈ d.lines ∧ line ≠ [] ∧ ∀ b ∈ line, b = Byte.space) ∧
      judge t ⟨d, none⟩ .indentation = .passed ∧
      (judge t ⟨d, none⟩ .trailingWhitespace ≠ .passed ∨
        judge t ⟨d, none⟩ .finalNewline ≠ .passed) ∧
      ¬ d.IsTidy t := by
  intro t d line
  have hline : line ∈ d.lines ∧ line ≠ [] ∧ ∀ b ∈ line, b = Byte.space :=
    ⟨by decide, by decide, fun _ => List.eq_of_mem_replicate (n := 4)⟩
  obtain ⟨hiff, hcaught⟩ := all_pass_iff_isTidy t d
  have h := hcaught line hline.1 hline.2.1 hline.2.2
  refine ⟨hline, by decide, h, fun htidy => ?_⟩
  have hpass := hiff.mpr htidy
  rcases h with h | h
  · exact h (hpass .trailingWhitespace)
  · exact h (hpass .finalNewline)

end Rule

end TextHygiene
