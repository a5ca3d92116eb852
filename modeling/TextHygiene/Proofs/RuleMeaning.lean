import Mathlib.Data.List.Induction
import TextHygiene.Proofs.Lines
import TextHygiene.Proofs.SharedPass

/-! What each detector says of a whole text. Three rules look for a byte, the indentation and the
spaces at the end are judged line by line, and the last rule counts the line feeds at the end. -/

namespace TextHygiene

namespace Byte

@[simp] theorem space_ne_lineFeed : space ≠ lineFeed := by decide

end Byte

namespace Detector

theorem judge_append (d : Detector) (a b : Bytes) (ending : Option IoError) :
    d.judge ⟨a ++ b, ending⟩ = match d.run a with
      | .error f => .failed (.fault f)
      | .ok d' => d'.judge ⟨b, ending⟩ := by
  simp only [judge, run_append]
  cases d.run a <;> rfl

theorem run_concat (d : Detector) (bs : Bytes) (b : UInt8) :
    d.run (bs ++ [b]) = match d.run bs with
      | .error f => .error f
      | .ok d' => d'.feed b := by
  rw [run_append]
  cases d.run bs with
  | error f => rfl
  | ok d' =>
    simp only [run]
    cases d'.feed b <;> rfl

/-! ## Rules that look for a byte -/

/-- A detector that fails at each byte of one kind and does nothing else but count lines. -/
structure LooksFor (bad : UInt8 → Bool) (fault : Nat → Fault) (scanning : Nat → Detector) :
    Prop where
  feed_eq : ∀ n b, (scanning n).feed b =
    if bad b then .error (fault n)
    else if b = Byte.lineFeed then .ok (scanning (n + 1)) else .ok (scanning n)
  finish_eq : ∀ n, (scanning n).finish = none

theorem looksFor_lineEndings :
    LooksFor (· = Byte.carriageReturn) .windowsLineEnding lineEndings where
  feed_eq _ _ := by simp only [feed, decide_eq_true_eq]
  finish_eq _ := rfl

theorem looksFor_tabs : LooksFor (· = Byte.tab) .tabCharacter tabs where
  feed_eq _ _ := by simp only [feed, decide_eq_true_eq]
  finish_eq _ := rfl

theorem looksFor_plainAscii : LooksFor (!Byte.isAscii ·) .nonAscii plainAscii where
  feed_eq _ _ := rfl
  finish_eq _ := rfl

section

variable {bad : UInt8 → Bool} {fault : Nat → Fault} {scanning : Nat → Detector}

theorem LooksFor.feed_bad (h : LooksFor bad fault scanning) {b : UInt8} (hb : bad b = true)
    (n : Nat) : (scanning n).feed b = .error (fault n) := by
  rw [h.feed_eq, if_pos hb]

theorem LooksFor.feed_good (h : LooksFor bad fault scanning) {b : UInt8} (hb : bad b = false)
    (n : Nat) : (scanning n).feed b = .ok (scanning (n + Bytes.lineFeeds [b])) := by
  rw [h.feed_eq, hb]
  by_cases hlf : b = Byte.lineFeed <;> simp [hlf, Bytes.lineFeeds]

theorem LooksFor.run_of_good (h : LooksFor bad fault scanning) {bs : Bytes}
    (good : ∀ b ∈ bs, bad b = false) (n : Nat) :
    (scanning n).run bs = .ok (scanning (n + bs.lineFeeds)) := by
  induction bs generalizing n with
  | nil => rfl
  | cons b rest ih =>
    obtain ⟨hb, hrest⟩ := List.forall_mem_cons.mp good
    simp only [run, h.feed_good hb, ih hrest]
    rw [Nat.add_assoc, ← Bytes.lineFeeds_append, List.singleton_append]

/-- The first bad byte is reported in its line, whatever comes after it. -/
theorem LooksFor.judge_of_first (h : LooksFor bad fault scanning) {before : Bytes}
    (good : ∀ b ∈ before, bad b = false) {b : UInt8} (hb : bad b = true) (rest : Bytes)
    (ending : Option IoError) (n : Nat) :
    (scanning n).judge ⟨before ++ b :: rest, ending⟩ =
      .failed (.fault (fault (n + before.lineFeeds))) := by
  rw [judge_append, h.run_of_good good]
  simp only [judge_cons, h.feed_bad hb]

theorem LooksFor.judge_eq_passed_iff (h : LooksFor bad fault scanning) (n : Nat) (d : Bytes) :
    (scanning n).judge ⟨d, none⟩ = .passed ↔ ∀ b ∈ d, bad b = false := by
  cases hfind : d.find? bad with
  | none =>
    have good : ∀ b ∈ d, bad b = false := by simpa using hfind
    refine iff_of_true ?_ good
    rw [judge, h.run_of_good good]
    simp [Stream.error?, h.finish_eq, Verdict.ofFault?]
  | some b =>
    obtain ⟨hb, before, rest, rfl, hbefore⟩ := List.find?_eq_some_iff_append.mp hfind
    have good : ∀ b ∈ before, bad b = false := by simpa using hbefore
    rw [h.judge_of_first good hb]
    refine iff_of_false (fun hpass => Verdict.noConfusion hpass) fun hall => ?_
    exact absurd (hall b (by simp)) (by simp [hb])

end

end Detector

/-! ## Indentation -/

namespace Line

/-- How many spaces stand at the start of a line. -/
def indent (line : Bytes) : Nat := (line.takeWhile (· = Byte.space)).length

/-- How many spaces stand at the end of a line. -/
def finalSpaces (line : Bytes) : Nat := (line.reverse.takeWhile (· = Byte.space)).length

/-- A line of spaces alone, or an empty one. -/
def IsBlank (line : Bytes) : Prop := ∀ b ∈ line, b = Byte.space

@[simp] theorem indent_space_cons (rest : Bytes) :
    indent (Byte.space :: rest) = indent rest + 1 := by
  simp [indent]

theorem indent_cons_of_ne {b : UInt8} (h : b ≠ Byte.space) (rest : Bytes) :
    indent (b :: rest) = 0 := by
  simp [indent, h]

theorem indent_replicate_append {k : Nat} {b : UInt8} (h : b ≠ Byte.space) (rest : Bytes) :
    indent (List.replicate k Byte.space ++ b :: rest) = k := by
  induction k with
  | zero => exact indent_cons_of_ne h rest
  | succ k ih => rw [List.replicate_succ, List.cons_append, indent_space_cons, ih]

/-- A line that is not blank is its indentation and then something else. -/
theorem exists_eq_indent_append {line : Bytes} (h : ¬ IsBlank line) :
    ∃ b rest, line = List.replicate (indent line) Byte.space ++ b :: rest ∧ b ≠ Byte.space := by
  induction line with
  | nil => exact absurd (fun _ hb => absurd hb List.not_mem_nil) h
  | cons x line ih =>
    by_cases hx : x = Byte.space
    · subst hx
      have hline : ¬ IsBlank line := fun hb => h (List.forall_mem_cons.mpr ⟨rfl, hb⟩)
      obtain ⟨b, rest, heq, hb⟩ := ih hline
      refine ⟨b, rest, ?_, hb⟩
      rw [indent_space_cons, List.replicate_succ, List.cons_append, ← heq]
    · exact ⟨x, line, by rw [indent_cons_of_ne hx]; rfl, hx⟩

theorem isMisindented_iff {t : TabSize} {line : Bytes} :
    IsMisindented t line ↔ ¬ IsBlank line ∧ ¬ t.width ∣ indent line := by
  constructor
  · rintro ⟨k, b, rest, rfl, hb, hk⟩
    rw [indent_replicate_append hb]
    exact ⟨fun hblank => hb (hblank b (by simp)), hk⟩
  · rintro ⟨hblank, hk⟩
    obtain ⟨b, rest, heq, hb⟩ := exists_eq_indent_append hblank
    exact ⟨indent line, b, rest, heq, hb, hk⟩

theorem finalSpaces_concat_space (front : Bytes) :
    finalSpaces (front ++ [Byte.space]) = finalSpaces front + 1 := by
  simp [finalSpaces]

theorem finalSpaces_concat_of_ne {b : UInt8} (h : b ≠ Byte.space) (front : Bytes) :
    finalSpaces (front ++ [b]) = 0 := by
  simp [finalSpaces, h]

theorem finalSpaces_eq_zero_iff {line : Bytes} :
    finalSpaces line = 0 ↔ line.getLast? ≠ some Byte.space := by
  rcases List.eq_nil_or_concat line with rfl | ⟨front, b, rfl⟩
  · simp [finalSpaces]
  · by_cases h : b = Byte.space <;> simp [finalSpaces, h]

end Line

namespace Detector

/-- Behind the indentation of a line nothing is judged. -/
theorem run_indentation_settled {line : Bytes} (h : Byte.lineFeed ∉ line) (u : TabSize)
    (n k : Nat) : (indentation u n k false).run line = .ok (indentation u n k false) := by
  induction line with
  | nil => rfl
  | cons b rest ih =>
    have hb : b ≠ Byte.lineFeed := (List.ne_of_not_mem_cons h).symm
    simp [run, feed, hb, ih (List.not_mem_of_not_mem_cons h)]

theorem run_indentation_of_isBlank {line : Bytes} (h : Line.IsBlank line) (u : TabSize)
    (n k : Nat) :
    (indentation u n k true).run line = .ok (indentation u n (k + line.length) true) := by
  induction line generalizing k with
  | nil => rfl
  | cons b rest ih =>
    obtain ⟨rfl, hrest⟩ := List.forall_mem_cons.mp h
    simp [run, feed, ih hrest, Nat.add_assoc, Nat.add_comm 1]

theorem run_indentation_of_not_isBlank {line : Bytes} (hblank : ¬ Line.IsBlank line)
    (h : Byte.lineFeed ∉ line) (u : TabSize) (n : Nat) :
    (indentation u n 0 true).run line =
      if u.width ∣ Line.indent line then .ok (indentation u n (Line.indent line) false)
      else .error (.badIndentation u.width n) := by
  obtain ⟨b, rest, heq, hb⟩ := Line.exists_eq_indent_append hblank
  have hspaces : Line.IsBlank (List.replicate (Line.indent line) Byte.space) := fun c hc =>
    List.eq_of_mem_replicate hc
  have hlf : Byte.lineFeed ∉ b :: rest := fun hmem => h (heq ▸ List.mem_append_right _ hmem)
  have hne : b ≠ Byte.lineFeed := (List.ne_of_not_mem_cons hlf).symm
  conv_lhs => rw [heq]
  rw [run_append, run_indentation_of_isBlank hspaces, List.length_replicate, Nat.zero_add]
  by_cases hdvd : u.width ∣ Line.indent line
  · simp [run, feed, hne, hb, hdvd, Nat.mod_eq_zero_of_dvd hdvd,
      run_indentation_settled (List.not_mem_of_not_mem_cons hlf)]
  · have hmod : Line.indent line % u.width ≠ 0 := fun e => hdvd (Nat.dvd_of_mod_eq_zero e)
    simp [run, feed, hne, hb, hdvd, hmod]

/-- A line is refused when it is misindented; else the detector goes on in the same line. -/
theorem run_indentation_line {line : Bytes} (h : Byte.lineFeed ∉ line) (u : TabSize) (n : Nat) :
    (Line.IsMisindented u line ∧
        (indentation u n 0 true).run line = .error (.badIndentation u.width n)) ∨
      (¬ Line.IsMisindented u line ∧ ∃ k leading,
        (indentation u n 0 true).run line = .ok (indentation u n k leading)) := by
  rw [Line.isMisindented_iff]
  by_cases hblank : Line.IsBlank line
  · exact .inr ⟨fun hmis => hmis.1 hblank, _, _, run_indentation_of_isBlank hblank u n 0⟩
  · rw [run_indentation_of_not_isBlank hblank h]
    by_cases hdvd : u.width ∣ Line.indent line
    · exact .inr ⟨fun hmis => hmis.2 hdvd, _, _, if_pos hdvd⟩
    · exact .inl ⟨⟨hblank, hdvd⟩, if_neg hdvd⟩

theorem judge_indentation_eq_passed_iff (u : TabSize) (n : Nat) (d : Bytes) :
    (indentation u n 0 true).judge ⟨d, none⟩ = .passed ↔
      ∀ line ∈ d.lines, ¬ Line.IsMisindented u line := by
  induction d using Bytes.lines_induction generalizing n with
  | last line h =>
    rw [Bytes.lines_of_notMem h, List.forall_mem_singleton, judge]
    rcases run_indentation_line h u n with ⟨hmis, hrun⟩ | ⟨hmis, k, leading, hrun⟩
    · simp [hrun, hmis]
    · simp [hrun, hmis, Stream.error?, finish, Verdict.ofFault?]
  | ended line rest h ih =>
    rw [Bytes.lines_append_cons h, List.forall_mem_cons, judge_append]
    rcases run_indentation_line h u n with ⟨hmis, hrun⟩ | ⟨hmis, k, leading, hrun⟩
    · simp [hrun, hmis]
    · simp [hrun, hmis, judge_cons, feed, ih]

end Detector

/-! ## Spaces at the end of lines -/

/-- A byte added at the end stands behind a space as a line feed, or changes nothing. -/
theorem Bytes.space_lineFeed_infix_concat_iff {d : Bytes} {b : UInt8} :
    [Byte.space, Byte.lineFeed] <:+: d ++ [b] ↔
      [Byte.space, Byte.lineFeed] <:+: d ∨ d.getLast? = some Byte.space ∧ b = Byte.lineFeed := by
  rw [List.infix_concat_iff, or_comm, List.getLast?_eq_some_iff]
  refine or_congr_right ⟨?_, ?_⟩
  · rintro ⟨front, h⟩
    obtain ⟨hd, hb⟩ : front ++ [Byte.space] = d ∧ Byte.lineFeed = b := by
      rwa [← List.append_singleton_inj, List.append_assoc]
    exact ⟨⟨front, hd.symm⟩, hb.symm⟩
  · rintro ⟨⟨front, rfl⟩, rfl⟩
    exact ⟨front, by rw [List.append_assoc]; rfl⟩

namespace Detector

/-- As long as no line feed stands behind a space, the run of spaces is that at the end. -/
theorem run_trailingWhitespace {d : Bytes} (h : ¬ [Byte.space, Byte.lineFeed] <:+: d) (n : Nat) :
    (trailingWhitespace n 0).run d =
      .ok (trailingWhitespace (n + d.lineFeeds) (Line.finalSpaces d)) := by
  induction d using List.reverseRecOn with
  | nil => rfl
  | append_singleton front b ih =>
    rw [Bytes.space_lineFeed_infix_concat_iff, not_or] at h
    obtain ⟨hfront, hend⟩ := h
    rw [run_concat, ih hfront, Bytes.lineFeeds_append]
    by_cases hlf : b = Byte.lineFeed
    · subst hlf
      -- This line feed stands behind no space, so the run that is tested here is zero.
      have hzero : Line.finalSpaces front = 0 :=
        Line.finalSpaces_eq_zero_iff.mpr fun hlast => hend ⟨hlast, rfl⟩
      rw [Line.finalSpaces_concat_of_ne Byte.space_ne_lineFeed.symm]
      simp [feed, hzero, Bytes.lineFeeds, Nat.add_assoc]
    · by_cases hspace : b = Byte.space
      · subst hspace
        rw [Line.finalSpaces_concat_space]
        simp [feed, Bytes.lineFeeds]
      · rw [Line.finalSpaces_concat_of_ne hspace]
        simp [feed, hlf, hspace, Bytes.lineFeeds]

theorem run_trailingWhitespace_line {line : Bytes} (h : Byte.lineFeed ∉ line) (n : Nat) :
    (trailingWhitespace n 0).run line = .ok (trailingWhitespace n (Line.finalSpaces line)) := by
  have hnone : ¬ [Byte.space, Byte.lineFeed] <:+: line := fun hmem => h (hmem.subset (by simp))
  rw [run_trailingWhitespace hnone, Bytes.lineFeeds, List.count_eq_zero.mpr h, Nat.add_zero]

/-- The last line is not ended, so the spaces at its end are not judged. -/
theorem judge_trailingWhitespace_eq_passed_iff (n : Nat) (d : Bytes) :
    (trailingWhitespace n 0).judge ⟨d, none⟩ = .passed ↔
      ∀ line ∈ d.lines.dropLast, line.getLast? ≠ some Byte.space := by
  induction d using Bytes.lines_induction generalizing n with
  | last line h =>
    rw [Bytes.lines_of_notMem h, judge, run_trailingWhitespace_line h]
    simp [Stream.error?, finish, Verdict.ofFault?]
  | ended line rest h ih =>
    rw [Bytes.lines_append_cons h, List.dropLast_cons_of_ne_nil (Bytes.lines_ne_nil rest),
      List.forall_mem_cons, judge_append, run_trailingWhitespace_line h,
      ← Line.finalSpaces_eq_zero_iff]
    by_cases hspaces : Line.finalSpaces line = 0
    · simp [judge_cons, feed, hspaces, ih]
    · simp [judge_cons, feed, hspaces]

/-! ## Line feeds at the end -/

theorem run_finalNewline (d : Bytes) :
    (finalNewline 0).run d = .ok (finalNewline d.finalLineFeeds) := by
  induction d using List.reverseRecOn with
  | nil => rfl
  | append_singleton front b ih =>
    rw [run_concat, ih]
    by_cases h : b = Byte.lineFeed
    · subst h
      simp [feed, Bytes.finalLineFeeds_concat_lineFeed]
    · simp [feed, h, Bytes.finalLineFeeds_concat_of_ne h]

theorem judge_finalNewline (d : Bytes) :
    (finalNewline 0).judge ⟨d, none⟩ =
      if d.finalLineFeeds = 1 then .passed
      else .failed (.fault (.finalNewlineCount d.finalLineFeeds)) := by
  rw [judge, run_finalNewline]
  by_cases h : d.finalLineFeeds = 1 <;> simp [Stream.error?, finish, Verdict.ofFault?, h]

theorem judge_finalNewline_eq_passed_iff (d : Bytes) :
    (finalNewline 0).judge ⟨d, none⟩ = .passed ↔ d.finalLineFeeds = 1 := by
  rw [judge_finalNewline]
  by_cases h : d.finalLineFeeds = 1 <;> simp [h]

end Detector

end TextHygiene
