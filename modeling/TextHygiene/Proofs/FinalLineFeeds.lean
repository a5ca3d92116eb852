import Mathlib.Order.Bounds.Defs
import TextHygiene.Proofs.RuleMeaning

/-! The line feeds at the end of a text. Their number is the length of the longest end of the text
that is made of line feeds alone, and the last rule passes where it is one and reports it else. -/

namespace TextHygiene

namespace Bytes

/-- Line feeds alone take the text before them on to its end. -/
theorem finalLineFeeds_append_of_all {b : Bytes} (h : ∀ c ∈ b, c = Byte.lineFeed) (a : Bytes) :
    finalLineFeeds (a ++ b) = finalLineFeeds a + b.length := by
  induction b using List.reverseRecOn with
  | nil => rw [List.append_nil, List.length_nil, Nat.add_zero]
  | append_singleton front c ih =>
    obtain rfl : c = Byte.lineFeed := h c (by simp)
    rw [← List.append_assoc, finalLineFeeds_concat_lineFeed,
      ih fun x hx => h x (List.mem_append_left _ hx), List.length_append, List.length_singleton,
      Nat.add_assoc]

/-- Another byte cuts off what stands before it. -/
theorem finalLineFeeds_append_of_exists {b : Bytes} (h : ∃ c ∈ b, c ≠ Byte.lineFeed) (a : Bytes) :
    finalLineFeeds (a ++ b) = finalLineFeeds b := by
  induction b using List.reverseRecOn with
  | nil =>
    obtain ⟨c, hc, -⟩ := h
    exact absurd hc List.not_mem_nil
  | append_singleton front c ih =>
    rw [← List.append_assoc]
    by_cases hc : c = Byte.lineFeed
    · obtain ⟨x, hx, hne⟩ := h
      have hfront : x ∈ front := by
        rcases List.mem_append.mp hx with hx | hx
        · exact hx
        · exact absurd ((List.mem_singleton.mp hx).trans hc) hne
      rw [hc, finalLineFeeds_concat_lineFeed, finalLineFeeds_concat_lineFeed, ih ⟨x, hfront, hne⟩]
    · rw [finalLineFeeds_concat_of_ne hc, finalLineFeeds_concat_of_ne hc]

theorem replicate_finalLineFeeds_suffix (d : Bytes) :
    List.replicate d.finalLineFeeds Byte.lineFeed <:+ d := by
  induction d using List.reverseRecOn with
  | nil => exact List.suffix_rfl
  | append_singleton front b ih =>
    by_cases hb : b = Byte.lineFeed
    · obtain ⟨start, hstart⟩ := ih
      refine ⟨start, ?_⟩
      rw [hb, finalLineFeeds_concat_lineFeed, List.replicate_succ', ← List.append_assoc, hstart]
    · rw [finalLineFeeds_concat_of_ne hb]
      exact List.nil_suffix

theorem isGreatest_finalLineFeeds (d : Bytes) :
    IsGreatest {n | List.replicate n Byte.lineFeed <:+ d} d.finalLineFeeds := by
  refine ⟨replicate_finalLineFeeds_suffix d, ?_⟩
  rintro n ⟨start, rfl⟩
  rw [finalLineFeeds_append_of_all fun c => List.eq_of_mem_replicate, List.length_replicate]
  exact Nat.le_add_left n _

end Bytes

namespace Rule

theorem failure?_judge_finalNewline (t : TabSize) (d : Bytes) (p : Path) :
    (judge t ⟨d, none⟩ .finalNewline).failure? p =
      if d.finalLineFeeds = 1 then none
      else some ⟨p, .fault (.finalNewlineCount d.finalLineFeeds)⟩ := by
  rw [judge, Detector.start, Detector.judge_finalNewline]
  by_cases h : d.finalLineFeeds = 1 <;> simp [Verdict.failure?, h]

/-- The last rule counts the line feeds in the longest end of a text that is made of line feeds
alone. It passes where there is one, and reports the number of them else. -/
theorem finalNewline_counts_longest_run_of_line_feeds (t : TabSize) (d : Bytes) (p : Path) :
    IsGreatest {n | List.replicate n Byte.lineFeed <:+ d} d.finalLineFeeds ∧
    (judge t ⟨d, none⟩ .finalNewline).failure? p =
      if d.finalLineFeeds = 1 then none
      else some ⟨p, .fault (.finalNewlineCount d.finalLineFeeds)⟩ :=
  ⟨Bytes.isGreatest_finalLineFeeds d, failure?_judge_finalNewline t d p⟩

/-- An empty text has no line feed at its end. -/
example (t : TabSize) :
    judge t ⟨[], none⟩ .finalNewline = .failed (.fault (.finalNewlineCount 0)) := rfl

end Rule

end TextHygiene
