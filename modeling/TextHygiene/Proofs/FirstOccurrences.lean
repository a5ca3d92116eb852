import TextHygiene.Proofs.RuleMeaning

/-! Four rules report the line in which something stands first. Three of them forbid a byte wherever
it stands, and one forbids a space right before a line feed. -/

namespace TextHygiene

/-! ## Forbidden bytes -/

/-- The rules that forbid a byte wherever it stands, each with these bytes and with its fault in a
line. -/
inductive Rule.Forbids : Rule → (UInt8 → Bool) → (Nat → Fault) → Prop
  | carriageReturn : Forbids .lineEndings (· = Byte.carriageReturn) .windowsLineEnding
  | tab : Forbids .tabs (· = Byte.tab) .tabCharacter
  | aboveAscii : Forbids .plainAscii (0x80 ≤ ·) .nonAscii

namespace Detector

theorem looksFor_aboveAscii : LooksFor (0x80 ≤ ·) .nonAscii plainAscii := by
  have hbad : (fun b => !Byte.isAscii b) = fun b : UInt8 => decide (0x80 ≤ b) := by
    funext b
    simp [Byte.isAscii, ← UInt8.not_lt]
  exact hbad ▸ looksFor_plainAscii

/-- The detector of such a rule does nothing but count lines until it finds one of the bytes. -/
theorem exists_looksFor_of_forbids {r : Rule} {bad : UInt8 → Bool} {fault : Nat → Fault}
    (h : r.Forbids bad fault) :
    ∃ scanning, LooksFor bad fault scanning ∧ ∀ t, start t r = scanning 1 := by
  cases h with
  | carriageReturn => exact ⟨lineEndings, looksFor_lineEndings, fun _ => rfl⟩
  | tab => exact ⟨tabs, looksFor_tabs, fun _ => rfl⟩
  | aboveAscii => exact ⟨plainAscii, looksFor_aboveAscii, fun _ => rfl⟩

end Detector

namespace Rule

/-- A rule that forbids a byte passes the texts without such a byte. Else it reports its own fault,
in the line of the first such byte of the text. -/
theorem forbidden_byte_is_reported_where_it_stands_first {r : Rule} {bad : UInt8 → Bool}
    {fault : Nat → Fault} (h : r.Forbids bad fault) (t : TabSize) (d : Bytes) (p : Path) :
    ((judge t ⟨d, none⟩ r).failure? p = none ↔ ∀ b ∈ d, ¬ bad b) ∧
    ∀ (before : Bytes) (b : UInt8) (rest : Bytes), d = before ++ b :: rest →
      (∀ c ∈ before, ¬ bad c) → bad b →
      (judge t ⟨d, none⟩ r).failure? p = some ⟨p, .fault (fault before.lineAfter)⟩ := by
  obtain ⟨scanning, hlooks, hstart⟩ := Detector.exists_looksFor_of_forbids h
  rw [judge, hstart]
  constructor
  · rw [Verdict.failure?_eq_none_iff, hlooks.judge_eq_passed_iff]
    simp only [Bool.not_eq_true]
  · rintro before b rest rfl hbefore hb
    rw [hlooks.judge_of_first (by simpa using hbefore) hb]
    rfl

/-- Two bytes of one character and one more behind them are not ASCII, and the line of the first is
told. -/
theorem third_line_has_first_byte_above_ascii :
    let t : TabSize := ⟨4, by decide⟩
    let before : Bytes := [0x78, 0x0A, 0x0D, 0x0A, 0x79]
    let rest : Bytes := [0xA9, 0x0A, 0xFF]
    let d : Bytes := before ++ 0xC3 :: rest
    (Forbids .plainAscii (0x80 ≤ ·) .nonAscii ∧ ∀ c ∈ before, ¬ decide (0x80 ≤ c)) ∧
      (judge t ⟨d, none⟩ .plainAscii).failure? [0x61] = some ⟨[0x61], .fault (.nonAscii 3)⟩ := by
  intro t before rest d
  have hrule : Forbids .plainAscii (0x80 ≤ ·) .nonAscii := .aboveAscii
  have hbefore : ∀ c ∈ before, ¬ decide (0x80 ≤ c) := by simp [before]
  have h := forbidden_byte_is_reported_where_it_stands_first hrule t d [0x61]
  exact ⟨⟨hrule, hbefore⟩, h.2 before 0xC3 rest rfl hbefore (by decide)⟩

end Rule

/-! ## Spaces right before a line feed -/

namespace Bytes

/-- Where a line feed stands behind a space, one of those is the first. -/
theorem exists_first_space_lineFeed {d : Bytes} (h : [Byte.space, Byte.lineFeed] <:+: d) :
    ∃ before rest, d = before ++ Byte.lineFeed :: rest ∧ before.getLast? = some Byte.space ∧
      ¬ [Byte.space, Byte.lineFeed] <:+: before := by
  induction d using List.reverseRecOn with
  | nil => exact absurd (List.infix_nil.mp h) (List.cons_ne_nil _ _)
  | append_singleton front b ih =>
    by_cases hfront : [Byte.space, Byte.lineFeed] <:+: front
    · obtain ⟨before, rest, rfl, hlast, hfirst⟩ := ih hfront
      exact ⟨before, rest ++ [b], by simp, hlast, hfirst⟩
    · obtain ⟨hlast, rfl⟩ := (space_lineFeed_infix_concat_iff.mp h).resolve_left hfront
      exact ⟨front, [], rfl, hlast, hfront⟩

end Bytes

namespace Detector

theorem judge_trailingWhitespace_of_first {before : Bytes}
    (hlast : before.getLast? = some Byte.space)
    (hfirst : ¬ [Byte.space, Byte.lineFeed] <:+: before) (n : Nat) (rest : Bytes)
    (ending : Option IoError) :
    (trailingWhitespace n 0).judge ⟨before ++ Byte.lineFeed :: rest, ending⟩ =
      .failed (.fault (.trailingWhitespace (n + before.lineFeeds))) := by
  have hspaces : Line.finalSpaces before ≠ 0 := fun hzero =>
    Line.finalSpaces_eq_zero_iff.mp hzero hlast
  rw [judge_append, run_trailingWhitespace hfirst]
  simp [judge_cons, feed, hspaces]

theorem judge_trailingWhitespace_eq_passed_iff_not_space_lineFeed (n : Nat) (d : Bytes) :
    (trailingWhitespace n 0).judge ⟨d, none⟩ = .passed ↔
      ¬ [Byte.space, Byte.lineFeed] <:+: d := by
  by_cases h : [Byte.space, Byte.lineFeed] <:+: d
  · refine iff_of_false ?_ (not_not_intro h)
    obtain ⟨before, rest, rfl, hlast, hfirst⟩ := Bytes.exists_first_space_lineFeed h
    rw [judge_trailingWhitespace_of_first hlast hfirst]
    exact Verdict.noConfusion
  · refine iff_of_true ?_ h
    rw [judge, run_trailingWhitespace h]
    rfl

theorem run_trailingWhitespace_spaces (n spaces k : Nat) :
    (trailingWhitespace n spaces).run (List.replicate k Byte.space) =
      .ok (trailingWhitespace n (spaces + k)) := by
  induction k generalizing spaces with
  | zero => rfl
  | succ k ih => simp [List.replicate_succ, run, feed, ih, Nat.add_assoc, Nat.add_comm 1]

theorem exists_eq_trailingWhitespace {d : Detector} (h : d.rule = .trailingWhitespace) :
    ∃ n spaces, d = trailingWhitespace n spaces := by
  cases d with
  | trailingWhitespace n spaces => exact ⟨n, spaces, rfl⟩
  | _ => exact absurd h (by simp [rule])

/-- Spaces are forgotten at the end of the text and at a byte that is neither a space nor a line
feed. -/
theorem judge_trailingWhitespace_forgets {rest : Bytes}
    (hrest : ∀ b ∈ rest.head?, b ≠ Byte.space ∧ b ≠ Byte.lineFeed) (n spaces spaces' : Nat)
    (ending : Option IoError) :
    (trailingWhitespace n spaces).judge ⟨rest, ending⟩ =
      (trailingWhitespace n spaces').judge ⟨rest, ending⟩ := by
  cases rest with
  | nil => rfl
  | cons b rest =>
    obtain ⟨hspace, hlf⟩ := hrest b rfl
    simp [judge_cons, feed, hspace, hlf]

theorem judge_trailingWhitespace_skip_spaces {rest : Bytes}
    (hrest : ∀ b ∈ rest.head?, b ≠ Byte.space ∧ b ≠ Byte.lineFeed) (d : Bytes) (n k : Nat)
    (ending : Option IoError) :
    (trailingWhitespace n 0).judge ⟨d ++ List.replicate k Byte.space ++ rest, ending⟩ =
      (trailingWhitespace n 0).judge ⟨d ++ rest, ending⟩ := by
  rw [List.append_assoc, judge_append, judge_append _ d rest]
  cases hrun : (trailingWhitespace n 0).run d with
  | error f => rfl
  | ok d' =>
    obtain ⟨m, spaces, rfl⟩ := exists_eq_trailingWhitespace (rule_run hrun)
    simp only [judge_append, run_trailingWhitespace_spaces]
    exact judge_trailingWhitespace_forgets hrest m _ _ ending

end Detector

namespace Rule

/-- The rule against spaces at the end of lines fails a text exactly when a line feed stands right
behind a space, and reports the line that the first such line feed ends. Spaces at the end of the
text, and spaces before any byte but a space and a line feed, change no verdict. -/
theorem space_before_line_feed_is_reported_where_it_stands_first (t : TabSize) (d : Bytes)
    (p : Path) :
    ((judge t ⟨d, none⟩ .trailingWhitespace).failure? p ≠ none ↔
      [Byte.space, Byte.lineFeed] <:+: d) ∧
    (∀ before rest : Bytes, d = before ++ Byte.lineFeed :: rest →
      before.getLast? = some Byte.space → ¬ [Byte.space, Byte.lineFeed] <:+: before →
      (judge t ⟨d, none⟩ .trailingWhitespace).failure? p =
        some ⟨p, .fault (.trailingWhitespace before.lineAfter)⟩) ∧
    (∀ k, judge t ⟨d ++ List.replicate k Byte.space, none⟩ .trailingWhitespace =
      judge t ⟨d, none⟩ .trailingWhitespace) ∧
    ∀ (k : Nat) (b : UInt8) (rest : Bytes), b ≠ Byte.space → b ≠ Byte.lineFeed →
      judge t ⟨d ++ List.replicate k Byte.space ++ b :: rest, none⟩ .trailingWhitespace =
        judge t ⟨d ++ b :: rest, none⟩ .trailingWhitespace := by
  refine ⟨?_, ?_, fun k => ?_, fun k b rest hspace hlf => ?_⟩
  · rw [Ne, Verdict.failure?_eq_none_iff, judge, Detector.start,
      Detector.judge_trailingWhitespace_eq_passed_iff_not_space_lineFeed, not_not]
  · rintro before rest rfl hlast hfirst
    rw [judge, Detector.start, Detector.judge_trailingWhitespace_of_first hlast hfirst]
    rfl
  · have hend : ∀ b ∈ ([] : Bytes).head?, b ≠ Byte.space ∧ b ≠ Byte.lineFeed := by simp
    have h := Detector.judge_trailingWhitespace_skip_spaces hend d 1 k none
    rwa [List.append_nil, List.append_nil] at h
  · refine Detector.judge_trailingWhitespace_skip_spaces ?_ d 1 k none
    rintro c ⟨⟩
    exact ⟨hspace, hlf⟩

/-- The third line is the first that ends in spaces. In the lines before it a carriage return and a
tab stand between the spaces and the line feed. -/
theorem third_line_ends_in_spaces :
    let t : TabSize := ⟨4, by decide⟩
    let before : Bytes := [0x61, 0x20, 0x0D, 0x0A, 0x20, 0x09, 0x0A, 0x63, 0x20, 0x20]
    let rest : Bytes := [0x64, 0x20, 0x0A]
    let d : Bytes := before ++ Byte.lineFeed :: rest
    (before.getLast? = some Byte.space ∧ ¬ [Byte.space, Byte.lineFeed] <:+: before) ∧
      (judge t ⟨d, none⟩ .trailingWhitespace).failure? [0x61] =
        some ⟨[0x61], .fault (.trailingWhitespace 3)⟩ ∧
      (Byte.carriageReturn ≠ Byte.space ∧ Byte.carriageReturn ≠ Byte.lineFeed) ∧
      judge t ⟨[0x61] ++ List.replicate 2 Byte.space ++ Byte.carriageReturn :: [0x0A], none⟩
        .trailingWhitespace = .passed := by
  intro t before rest d
  have hlast : before.getLast? = some Byte.space := by decide
  have hfirst : ¬ [Byte.space, Byte.lineFeed] <:+: before := by decide
  have hne : Byte.carriageReturn ≠ Byte.space ∧ Byte.carriageReturn ≠ Byte.lineFeed := by decide
  have h := space_before_line_feed_is_reported_where_it_stands_first t d [0x61]
  have hkept := (space_before_line_feed_is_reported_where_it_stands_first t [0x61] [0x61]).2.2.2 2
    Byte.carriageReturn [0x0A] hne.1 hne.2
  exact ⟨⟨hlast, hfirst⟩, h.2.1 before rest rfl hlast hfirst, hne, hkept.trans (by decide)⟩

end Rule

end TextHygiene
