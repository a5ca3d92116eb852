import Mathlib.Tactic.SplitIfs
import TextHygiene.Proofs.FinalLineFeeds

/-! Texts that are put together where a line ends. Five rules judge the second text as if it stood
alone, only that its lines are further down; the last rule counts the line feeds at the end. -/

namespace TextHygiene

/-- The same fault, some lines further down. -/
def Fault.below (k : Nat) : Fault → Fault
  | windowsLineEnding n => windowsLineEnding (n + k)
  | tabCharacter n => tabCharacter (n + k)
  | badIndentation u n => badIndentation u (n + k)
  | trailingWhitespace n => trailingWhitespace (n + k)
  | finalNewlineCount c => finalNewlineCount c
  | nonAscii n => nonAscii (n + k)

/-- The same failure, some lines further down. -/
def Failure.below (k : Nat) : Failure → Failure
  | ⟨p, .fault f⟩ => ⟨p, .fault (f.below k)⟩
  | ⟨p, .unreadable e⟩ => ⟨p, .unreadable e⟩

namespace Detector

/-! ## Detectors further down -/

/-- The same detector, some lines further down. -/
def below (k : Nat) : Detector → Detector
  | lineEndings n => lineEndings (n + k)
  | tabs n => tabs (n + k)
  | indentation u n spaces leading => indentation u (n + k) spaces leading
  | trailingWhitespace n spaces => trailingWhitespace (n + k) spaces
  | finalNewline run => finalNewline run
  | plainAscii n => plainAscii (n + k)

theorem below_zero (d : Detector) : d.below 0 = d := by cases d <;> rfl

theorem below_below (j k : Nat) (d : Detector) : (d.below j).below k = d.below (j + k) := by
  cases d <;> simp [below, Nat.add_assoc]

/-- What a detector does does not depend on the line that it is in. -/
theorem feed_below (k : Nat) (b : UInt8) (d : Detector) :
    (d.below k).feed b = match d.feed b with
      | .error f => .error (f.below k)
      | .ok d' => .ok (d'.below k) := by
  cases d <;> simp only [below, feed, Nat.add_right_comm _ k] <;> split_ifs <;> rfl

theorem finish_below (k : Nat) (d : Detector) :
    (d.below k).finish = d.finish.map (Fault.below k) := by
  cases d with
  | finalNewline run => by_cases h : run = 1 <;> simp [below, finish, h, Fault.below]
  | _ => rfl

theorem failure?_judge_below (k : Nat) (d : Detector) (s : Stream) (p : Path) :
    ((d.below k).judge s).failure? p = ((d.judge s).failure? p).map (Failure.below k) := by
  obtain ⟨bytes, ending⟩ := s
  induction bytes generalizing d with
  | nil =>
    rw [judge_nil, judge_nil, finish_below]
    cases (Stream.mk [] ending).error? with
    | some e => rfl
    | none => cases d.finish <;> rfl
  | cons b rest ih =>
    rw [judge_cons, judge_cons, feed_below]
    cases d.feed b with
    | error f => rfl
    | ok d' => exact ih d'

/-! ## Starts of lines -/

/-- The detector with all but its line forgotten, as a line finds it that starts anew. -/
def lineStart : Detector → Detector
  | indentation u n _ _ => indentation u n 0 true
  | trailingWhitespace n _ => trailingWhitespace n 0
  | finalNewline _ => finalNewline 0
  | d => d

theorem lineStart_start (t : TabSize) (r : Rule) : (start t r).lineStart = start t r := by
  cases r <;> rfl

theorem lineStart_feed {d d' : Detector} {b : UInt8} (h : d.feed b = .ok d') :
    d'.lineStart = d.lineStart.below (Bytes.lineFeeds [b]) := by
  cases d <;> simp only [feed] at h <;> split_ifs at h <;> cases h <;>
    simp [lineStart, below, Bytes.lineFeeds, *]

theorem lineStart_run {d d' : Detector} {bs : Bytes} (h : d.run bs = .ok d') :
    d'.lineStart = d.lineStart.below bs.lineFeeds := by
  refine run_induction (motive := fun bs e => e.lineStart = d.lineStart.below bs.lineFeeds)
    (below_zero _).symm ?_ h
  intro before b d₁ d₂ ih hfeed
  rw [lineStart_feed hfeed, ih, below_below, ← Bytes.lineFeeds_append]

/-- A line feed makes every detector but that of the last rule start anew. -/
theorem lineStart_of_feed_lineFeed {d d' : Detector} (hd : d.rule ≠ .finalNewline)
    (h : d.feed Byte.lineFeed = .ok d') : d'.lineStart = d' := by
  cases d with
  | finalNewline run => exact absurd rfl hd
  | indentation u n spaces leading =>
    rw [feed, if_pos rfl] at h
    cases h
    rfl
  | _ =>
    simp only [feed] at h
    split_ifs at h <;> cases h <;> rfl

/-- Behind a text of ended lines that it does not refuse, a detector stands as at the start. -/
theorem eq_below_start_of_run {a : Bytes} (ha : a = [] ∨ a.getLast? = some Byte.lineFeed)
    {t : TabSize} {r : Rule} (hr : r ≠ .finalNewline) {d : Detector}
    (h : (start t r).run a = .ok d) : d = (start t r).below a.lineFeeds := by
  rcases ha with rfl | ha
  · cases h
    exact (below_zero _).symm
  · obtain ⟨front, rfl⟩ := List.getLast?_eq_some_iff.mp ha
    -- The whole run tells the line; the last line feed of it leaves nothing else to remember.
    have hline := lineStart_run h
    rw [run_concat] at h
    cases hfront : (start t r).run front with
    | error f => simp [hfront] at h
    | ok before =>
      rw [hfront] at h
      have hrule : before.rule ≠ .finalNewline := by rwa [rule_run hfront, rule_start]
      rw [← lineStart_of_feed_lineFeed hrule h, hline, lineStart_start]

/-! ## Verdicts without the rest of the text -/

theorem finish_eq_none {d : Detector} (h : d.rule ≠ .finalNewline) : d.finish = none := by
  cases d with
  | finalNewline run => exact absurd rfl h
  | _ => rfl

theorem judge_of_run_eq_ok {d d' : Detector} (hd : d.rule ≠ .finalNewline) {bs : Bytes}
    (h : d.run bs = .ok d') : d.judge ⟨bs, none⟩ = .passed := by
  have hfinish : d'.finish = none := finish_eq_none (by rwa [rule_run h])
  simp [judge, h, Stream.error?, hfinish, Verdict.ofFault?]

theorem judge_of_run_eq_error {d : Detector} {bs : Bytes} {f : Fault} (h : d.run bs = .error f)
    (ending : Option IoError) : d.judge ⟨bs, ending⟩ = .failed (.fault f) := by
  rw [judge, h]

end Detector

namespace Rule

/-- What five rules find wrong with a text stays wrong, whatever comes after it. -/
theorem judge_append_of_failed {t : TabSize} {r : Rule} (hr : r ≠ .finalNewline) {a : Bytes}
    {p : Path} {f : Failure} (h : (judge t ⟨a, none⟩ r).failure? p = some f) (b : Bytes)
    (ending : Option IoError) : (judge t ⟨a ++ b, ending⟩ r).failure? p = some f := by
  have hd : (Detector.start t r).rule ≠ .finalNewline := by rwa [Detector.rule_start]
  rw [judge] at h
  rw [judge, Detector.judge_append]
  cases hrun : (Detector.start t r).run a with
  | error e => rwa [Detector.judge_of_run_eq_error hrun] at h
  | ok d =>
    rw [Detector.judge_of_run_eq_ok hd hrun] at h
    cases h

theorem judge_append_of_passed {t : TabSize} {r : Rule} (hr : r ≠ .finalNewline) {a : Bytes}
    (ha : a = [] ∨ a.getLast? = some Byte.lineFeed) {p : Path}
    (h : (judge t ⟨a, none⟩ r).failure? p = none) (b : Bytes) (ending : Option IoError) :
    (judge t ⟨a ++ b, ending⟩ r).failure? p =
      ((judge t ⟨b, ending⟩ r).failure? p).map (Failure.below a.lineFeeds) := by
  rw [judge] at h
  rw [judge, Detector.judge_append]
  cases hrun : (Detector.start t r).run a with
  | error e =>
    rw [Detector.judge_of_run_eq_error hrun] at h
    cases h
  | ok d =>
    rw [Detector.eq_below_start_of_run ha hr hrun]
    exact Detector.failure?_judge_below _ _ _ p

/-- Five rules are local to lines. What they report on a text of ended lines they report on every
text that goes on after it, and where they pass it they report on the longer text what they report
on the rest alone, as many lines further down. The last rule looks at the rest alone if that has
any byte but line feeds, and else counts all the line feeds at the end. -/
theorem verdicts_are_local_to_lines (t : TabSize) {a : Bytes}
    (ha : a = [] ∨ a.getLast? = some Byte.lineFeed) (b : Bytes) (p : Path) :
    (∀ r : Rule, r ≠ .finalNewline →
      (∀ f, (judge t ⟨a, none⟩ r).failure? p = some f →
        (judge t ⟨a ++ b, none⟩ r).failure? p = some f) ∧
      ((judge t ⟨a, none⟩ r).failure? p = none →
        (judge t ⟨a ++ b, none⟩ r).failure? p =
          ((judge t ⟨b, none⟩ r).failure? p).map (Failure.below a.lineFeeds))) ∧
    ((∃ c ∈ b, c ≠ Byte.lineFeed) →
      (judge t ⟨a ++ b, none⟩ .finalNewline).failure? p =
        (judge t ⟨b, none⟩ .finalNewline).failure? p) ∧
    ((∀ c ∈ b, c = Byte.lineFeed) →
      (judge t ⟨a ++ b, none⟩ .finalNewline).failure? p =
        if a.finalLineFeeds + b.length = 1 then none
        else some ⟨p, .fault (.finalNewlineCount (a.finalLineFeeds + b.length))⟩) := by
  refine ⟨fun r hr => ⟨fun f hfails => ?_, fun hpass => ?_⟩, fun hother => ?_, fun hall => ?_⟩
  · exact judge_append_of_failed hr hfails b none
  · exact judge_append_of_passed hr ha hpass b none
  · rw [failure?_judge_finalNewline, failure?_judge_finalNewline,
      Bytes.finalLineFeeds_append_of_exists hother]
  · rw [failure?_judge_finalNewline, Bytes.finalLineFeeds_append_of_all hall]

/-- The second of two texts has a misindented line, its second, which is the fourth of both. In the
other order the fault stays in the second line. -/
theorem misindented_line_is_told_further_down :
    let t : TabSize := ⟨4, by decide⟩
    let a : Bytes := [0x61, 0x0A, 0x0A]
    let b : Bytes := [0x62, 0x0A, 0x20, 0x63, 0x0A]
    let p : Path := [0x70]
    (a.getLast? = some Byte.lineFeed ∧ b.getLast? = some Byte.lineFeed) ∧
      (Rule.indentation ≠ .finalNewline ∧
        (judge t ⟨a, none⟩ .indentation).failure? p = none ∧
        (judge t ⟨b, none⟩ .indentation).failure? p = some ⟨p, .fault (.badIndentation 4 2)⟩) ∧
      (judge t ⟨a ++ b, none⟩ .indentation).failure? p = some ⟨p, .fault (.badIndentation 4 4)⟩ ∧
      (judge t ⟨b ++ a, none⟩ .indentation).failure? p = some ⟨p, .fault (.badIndentation 4 2)⟩ ∧
      (∃ c ∈ b, c ≠ Byte.lineFeed) ∧
      (judge t ⟨a ++ b, none⟩ .finalNewline).failure? p = none ∧
      (judge t ⟨a ++ [Byte.lineFeed], none⟩ .finalNewline).failure? p =
        some ⟨p, .fault (.finalNewlineCount 3)⟩ := by
  intro t a b p
  have ha : a.getLast? = some Byte.lineFeed := rfl
  have hb : b.getLast? = some Byte.lineFeed := rfl
  have hne : Rule.indentation ≠ .finalNewline := by decide
  have hpass : (judge t ⟨a, none⟩ .indentation).failure? p = none := by decide
  have hfails : (judge t ⟨b, none⟩ .indentation).failure? p =
      some ⟨p, .fault (.badIndentation 4 2)⟩ := by decide
  have hother : ∃ c ∈ b, c ≠ Byte.lineFeed := by decide
  have hab := verdicts_are_local_to_lines t (.inr ha) b p
  have hba := verdicts_are_local_to_lines t (.inr hb) a p
  have hlast := verdicts_are_local_to_lines t (.inr ha) [Byte.lineFeed] p
  refine ⟨⟨ha, hb⟩, ⟨hne, hpass, hfails⟩, ?_, (hba.1 _ hne).1 _ hfails, hother, ?_, ?_⟩
  · rw [(hab.1 _ hne).2 hpass, hfails]
    rfl
  · rw [hab.2.1 hother]
    decide
  · exact hlast.2.2 (by simp)

end Rule

end TextHygiene
