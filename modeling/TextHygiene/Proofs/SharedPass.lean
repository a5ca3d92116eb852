import TextHygiene.Scan.Shared

/-! One pass over a stream gives every rule the verdict of a scan of its own. What a lane comes to
on the rest of the stream does not change from byte to byte, and the count of pending lanes is the
number of lanes without a verdict as long as the pass reads. -/

namespace TextHygiene

/-! ## One detector, byte by byte -/

theorem Detector.judge_nil (d : Detector) (ending : Option IoError) :
    d.judge ⟨[], ending⟩ = match (Stream.mk [] ending).error? with
      | some e => .failed (.unreadable e)
      | none => .ofFault? d.finish := rfl

theorem Detector.judge_cons (d : Detector) (b : UInt8) (rest : Bytes) (ending : Option IoError) :
    d.judge ⟨b :: rest, ending⟩ = match d.feed b with
      | .error f => .failed (.fault f)
      | .ok d' => d'.judge ⟨rest, ending⟩ := by
  simp only [judge, run]
  cases d.feed b with
  | error f => rfl
  | ok d' => rfl

/-- Only the error that ends the stream is told. -/
theorem Detector.error?_of_judge {d : Detector} {s : Stream} {e : IoError}
    (h : d.judge s = .failed (.unreadable e)) : s.error? = some e := by
  unfold judge at h
  split at h
  · cases h
  · split at h
    · rename_i herror
      cases h
      exact herror
    · cases hfault : Detector.finish _ with
      | none =>
        rw [hfault] at h
        cases h
      | some f =>
        rw [hfault] at h
        cases h

/-! ## One lane -/

namespace Lane

/-- The verdict that a lane comes to if `s` is the rest of the stream. -/
def verdictOn (s : Stream) (l : Lane) : Verdict := l.verdict.getD (l.detector.judge s)

@[simp] theorem rule_feed (b : UInt8) (l : Lane) : (l.feed b).rule = l.rule := by
  unfold feed
  split
  · rfl
  · split <;> rfl

@[simp] theorem rule_settle (f : Lane → Verdict) (l : Lane) : (l.settle f).rule = l.rule := by
  unfold settle
  split <;> rfl

theorem verdict_settle (f : Lane → Verdict) (l : Lane) :
    (l.settle f).verdict = some (l.verdict.getD (f l)) := by
  cases h : l.verdict with
  | some v => simp [settle, h]
  | none => simp [settle, h]

theorem verdictOn_feed (b : UInt8) (rest : Bytes) (ending : Option IoError) (l : Lane) :
    (l.feed b).verdictOn ⟨rest, ending⟩ = l.verdictOn ⟨b :: rest, ending⟩ := by
  cases h : l.verdict with
  | some v => rw [feed_of_verdict h, verdictOn, verdictOn, h]; rfl
  | none =>
    simp only [verdictOn, feed, h, Detector.judge_cons]
    cases l.detector.feed b with
    | error f => rfl
    | ok d => simp

theorem exists_verdict_of_not_isOpen {l : Lane} (h : l.isOpen = false) :
    ∃ v, l.verdict = some v := by
  simpa [isOpen, Option.isSome_iff_exists] using h

theorem verdictOn_of_not_isOpen {l : Lane} (h : l.isOpen = false) (s : Stream) :
    l.verdictOn s = l.verdict.getD .passed := by
  obtain ⟨v, hv⟩ := exists_verdict_of_not_isOpen h
  rw [verdictOn, hv]
  rfl

/-- A lane that has its verdict never becomes pending again. -/
theorem isOpen_of_isOpen_feed {b : UInt8} {l : Lane} (h : (l.feed b).isOpen = true) :
    l.isOpen = true := by
  cases hv : l.verdict with
  | some v => rwa [feed_of_verdict hv] at h
  | none => simp [isOpen, hv]

end Lane

/-! ## All lanes and their count -/

namespace Pass

/-- The count is the number of lanes that have no verdict. -/
def IsCounted (p : Pass) : Prop := p.pending = p.lanes.countP Lane.isOpen

theorem isCounted_start (t : TabSize) (rules : List Rule) : (start t rules).IsCounted := by
  simp [IsCounted, start, List.countP_map, Function.comp_def, Lane.isOpen]

theorem lanes_feedLanes (b : UInt8) (lanes : List Lane) (pending : Nat) :
    (feedLanes b lanes pending).lanes = lanes.map (Lane.feed b) := by
  induction lanes generalizing pending with
  | nil => rfl
  | cons l rest ih => simp [feedLanes, ih]

@[simp] theorem lanes_feed (b : UInt8) (p : Pass) : (p.feed b).lanes = p.lanes.map (Lane.feed b) :=
  lanes_feedLanes b p.lanes p.pending

/-- The count loses one for each lane that retires; what else it counts stays. -/
theorem pending_feedLanes (b : UInt8) (lanes : List Lane) (others : Nat) :
    (feedLanes b lanes (lanes.countP Lane.isOpen + others)).pending =
      (lanes.map (Lane.feed b)).countP Lane.isOpen + others := by
  induction lanes generalizing others with
  | nil => simp [feedLanes]
  | cons l rest ih =>
    cases ho : l.isOpen <;> cases hf : (l.feed b).isOpen
    · simp [feedLanes, ho, hf, ih]
    · rw [Lane.isOpen_of_isOpen_feed hf] at ho
      cases ho
    · simpa [feedLanes, ho, hf, Nat.add_right_comm _ 1] using ih others
    · simpa [feedLanes, ho, hf, Nat.add_assoc, Nat.add_comm 1] using ih (others + 1)

theorem isCounted_feed {p : Pass} (h : p.IsCounted) (b : UInt8) : (p.feed b).IsCounted := by
  have hp := pending_feedLanes b p.lanes 0
  rw [Nat.add_zero, Nat.add_zero, ← h] at hp
  rw [IsCounted, lanes_feed]
  exact hp

theorem not_isOpen_of_pending_eq_zero {p : Pass} (h : p.IsCounted) (h0 : p.pending = 0) :
    ∀ l ∈ p.lanes, l.isOpen = false := by
  rw [h, List.countP_eq_zero] at h0
  intro l hl
  simpa using h0 l hl

/-- The verdicts that the lanes come to if `s` is the rest of the stream. -/
def verdictsOn (s : Stream) (p : Pass) : List (Rule × Verdict) :=
  p.lanes.map fun l => (l.rule, l.verdictOn s)

theorem verdictsOn_feed (b : UInt8) (rest : Bytes) (ending : Option IoError) (p : Pass) :
    (p.feed b).verdictsOn ⟨rest, ending⟩ = p.verdictsOn ⟨b :: rest, ending⟩ := by
  rw [verdictsOn, lanes_feed, List.map_map]
  refine List.map_congr_left fun l _ => ?_
  rw [Function.comp_apply, Lane.rule_feed, Lane.verdictOn_feed]

/-- When no lane is pending, the rest of the stream decides nothing. -/
theorem verdicts_eq_verdictsOn {p : Pass} (h : p.IsCounted) (h0 : p.pending = 0) (s : Stream) :
    p.verdicts = p.verdictsOn s := by
  refine List.map_congr_left fun l hl => ?_
  rw [Lane.verdictOn_of_not_isOpen (not_isOpen_of_pending_eq_zero h h0 l hl)]

theorem verdicts_settle (f : Lane → Verdict) (lanes : List Lane) (pending : Nat) :
    (Pass.mk (lanes.map (Lane.settle f)) pending).verdicts =
      lanes.map fun l => (l.rule, l.verdict.getD (f l)) := by
  rw [verdicts, List.map_map]
  refine List.map_congr_left fun l _ => ?_
  rw [Function.comp_apply, Lane.rule_settle, Lane.verdict_settle]
  rfl

theorem read_of_pending_eq_zero {p : Pass} (h0 : p.pending = 0) (error? : Option IoError)
    (bytes : Bytes) : p.read error? bytes = p := by
  rw [read.eq_def]
  exact if_pos h0

theorem read_cons {p : Pass} (h0 : p.pending ≠ 0) (error? : Option IoError) (b : UInt8)
    (rest : Bytes) : p.read error? (b :: rest) = (p.feed b).read error? rest := by
  rw [read.eq_def]
  exact if_neg h0

theorem read_nil_some {p : Pass} (h0 : p.pending ≠ 0) (e : IoError) :
    p.read (some e) [] = ⟨p.lanes.map (·.settle fun _ => .failed (.unreadable e)), 0⟩ := by
  rw [read.eq_def]
  exact if_neg h0

theorem read_nil_none (p : Pass) : p.read none [] = p := by
  rw [read.eq_def]
  exact ite_self p

theorem close_of_pending_eq_zero {p : Pass} (h0 : p.pending = 0) : p.close = p := if_pos h0

/-- At the end of the stream an error settles the open lanes, or else their detectors do. -/
theorem verdicts_close_read_nil {p : Pass} (h0 : p.pending ≠ 0) (ending : Option IoError) :
    (p.read (Stream.mk [] ending).error? []).close.verdicts = p.verdictsOn ⟨[], ending⟩ := by
  simp only [verdictsOn, Lane.verdictOn, Detector.judge_nil]
  cases (Stream.mk [] ending).error? with
  | some e =>
    rw [read_nil_some h0, close_of_pending_eq_zero rfl]
    exact verdicts_settle _ _ _
  | none =>
    rw [read_nil_none, close, if_neg h0]
    exact verdicts_settle _ _ _

/-- Reading and closing gives every lane what it comes to, wherever the pass stops. -/
theorem verdicts_close_read {p : Pass} (h : p.IsCounted) (bytes : Bytes)
    (ending : Option IoError) :
    (p.read (Stream.mk bytes ending).error? bytes).close.verdicts =
      p.verdictsOn ⟨bytes, ending⟩ := by
  induction bytes generalizing p with
  | nil =>
    by_cases h0 : p.pending = 0
    · rw [read_of_pending_eq_zero h0, close_of_pending_eq_zero h0]
      exact verdicts_eq_verdictsOn h h0 _
    · exact verdicts_close_read_nil h0 ending
  | cons b rest ih =>
    by_cases h0 : p.pending = 0
    · rw [read_of_pending_eq_zero h0, close_of_pending_eq_zero h0]
      exact verdicts_eq_verdictsOn h h0 _
    · rw [read_cons h0, ← verdictsOn_feed]
      exact ih (isCounted_feed h b)

end Pass

theorem judgeShared_eq_map_judge (t : TabSize) (s : Stream) (rules : List Rule) :
    judgeShared t s rules = rules.map fun r => (r, r.judge t s) := by
  rw [judgeShared, Pass.verdicts_close_read (Pass.isCounted_start t rules) s.bytes s.ending]
  simp [Pass.verdictsOn, Pass.start, Lane.verdictOn, Rule.judge]

/-- Scanning once for many rules reports what scanning once for each rule reports: the same rules
in the same order, each with its own failure or none, wherever the stream breaks off. -/
theorem judgeShared_agrees_with_judge (p : Path) (t : TabSize) (s : Stream) (rules : List Rule) :
    ((judgeShared t s rules).map fun (r, v) => (r, v.failure? p)) =
      rules.map fun r => (r, (r.judge t s).failure? p) := by
  rw [judgeShared_eq_map_judge, List.map_map]
  rfl

/-- The stream breaks off when the tab has been found and the other rules are undecided. -/
example :
    let e : IoError := ⟨.other, "broken"⟩
    judgeShared ⟨4, by decide⟩ ⟨[Byte.tab, Byte.lineFeed], some e⟩ [.finalNewline, .tabs, .tabs] =
      [(.finalNewline, .failed (.unreadable e)), (.tabs, .failed (.fault (.tabCharacter 1))),
        (.tabs, .failed (.fault (.tabCharacter 1)))] := by
  decide

end TextHygiene
