import TextHygiene.Proofs.LineLocality

/-! Texts that go on, and texts that break off. A fault that a byte makes a rule report is its
verdict whatever comes after that byte, a read error included; a read error is told by the rules
that no byte before it made report a fault. -/

namespace TextHygiene

namespace Detector

/-- A byte of the text makes the detector report a fault. -/
def Meets (d : Detector) (bs : Bytes) (f : Fault) : Prop :=
  ∃ before b rest reached,
    bs = before ++ b :: rest ∧ d.run before = .ok reached ∧ reached.feed b = .error f

theorem not_meets_nil (d : Detector) (f : Fault) : ¬ d.Meets [] f := by
  rintro ⟨before, b, rest, -, heq, -⟩
  cases before <;> cases heq

/-- The first byte is reported, or else the rest is met by the detector that it leaves behind. -/
theorem meets_cons_iff {d : Detector} {b : UInt8} {rest : Bytes} {f : Fault} :
    d.Meets (b :: rest) f ↔
      d.feed b = .error f ∨ ∃ next, d.feed b = .ok next ∧ next.Meets rest f := by
  constructor
  · rintro ⟨before, c, after, reached, heq, hrun, hfeed⟩
    cases before with
    | nil =>
      obtain ⟨rfl, rfl⟩ := List.cons.inj heq
      obtain rfl := Except.ok.inj hrun
      exact .inl hfeed
    | cons x before =>
      obtain ⟨rfl, rfl⟩ := List.cons.inj heq
      rw [run] at hrun
      cases hnext : d.feed b with
      | error g => simp [hnext] at hrun
      | ok next =>
        rw [hnext] at hrun
        exact .inr ⟨next, rfl, before, c, after, reached, rfl, hrun, hfeed⟩
  · rintro (hfeed | ⟨next, hnext, before, c, after, reached, rfl, hrun, hfeed⟩)
    · exact ⟨[], b, rest, d, rfl, rfl, hfeed⟩
    · refine ⟨b :: before, c, after, reached, rfl, ?_, hfeed⟩
      rw [run, hnext]
      exact hrun

theorem run_eq_error_iff {d : Detector} {bs : Bytes} {f : Fault} :
    d.run bs = .error f ↔ d.Meets bs f := by
  induction bs generalizing d with
  | nil =>
    refine iff_of_false (fun h => ?_) (d.not_meets_nil f)
    cases h
  | cons b rest ih =>
    rw [run, meets_cons_iff]
    cases d.feed b with
    | error g => simp
    | ok next => simp [ih]

theorem exists_run_eq_ok_iff {d : Detector} {bs : Bytes} :
    (∃ reached, d.run bs = .ok reached) ↔ ¬ ∃ f, d.Meets bs f := by
  simp only [← run_eq_error_iff]
  cases d.run bs <;> simp

/-- The last rule is decided by the end of the text, not by a byte. -/
theorem not_meets_of_finalNewline {d : Detector} (hd : d.rule = .finalNewline) (bs : Bytes)
    (f : Fault) : ¬ d.Meets bs f := by
  rintro ⟨before, b, rest, reached, -, hrun, hfeed⟩
  have hreached : reached.rule = .finalNewline := (rule_run hrun).trans hd
  cases reached with
  | finalNewline run => simp only [feed] at hfeed; split_ifs at hfeed
  | _ => cases hreached

/-- A fault that a byte was met with is the verdict, whatever follows. -/
theorem judge_append_of_meets {d : Detector} {bs : Bytes} {f : Fault} (h : d.Meets bs f)
    (more : Bytes) (ending : Option IoError) :
    d.judge ⟨bs ++ more, ending⟩ = .failed (.fault f) := by
  rw [judge_append, run_eq_error_iff.mpr h]

/-- A read error is told exactly when no byte before it decided the rule. -/
theorem judge_eq_unreadable_iff {d : Detector} {bs : Bytes} {e : IoError}
    (he : e.kind ≠ .interrupted) :
    d.judge ⟨bs, some e⟩ = .failed (.unreadable e) ↔ ¬ ∃ f, d.Meets bs f := by
  have herror : (Stream.mk bs (some e)).error? = some e := by simp [Stream.error?, he]
  rw [← exists_run_eq_ok_iff, judge, herror]
  cases d.run bs with
  | error f => simp
  | ok reached => simp

end Detector

namespace Rule

/-- What a scan for a rule makes of more that comes after a text. The failure that it reports on the
text alone stays, a fault that a byte was met with is told in any case, and an error right behind
the text is told exactly when no byte was met with a fault, by the last rule therefore always. -/
structure StandsBy (t : TabSize) (r : Rule) (d : Bytes) (scan : Stream → Verdict) : Prop where
  failure_stays : r ≠ .finalNewline → ∀ p f, (scan ⟨d, none⟩).failure? p = some f →
    ∀ more ending, (scan ⟨d ++ more, ending⟩).failure? p = some f
  met_fault_told : ∀ f, (Detector.start t r).Meets d f → ∀ p more ending,
    (scan ⟨d ++ more, ending⟩).failure? p = some ⟨p, .fault f⟩
  error_told_iff : ∀ e : IoError, e.kind ≠ .interrupted → ∀ p,
    ((scan ⟨d, some e⟩).failure? p = some ⟨p, .unreadable e⟩ ↔
      ¬ ∃ f, (Detector.start t r).Meets d f)
  error_told_last : r = .finalNewline → ∀ e : IoError, e.kind ≠ .interrupted → ∀ p,
    (scan ⟨d, some e⟩).failure? p = some ⟨p, .unreadable e⟩

theorem standsBy_judge (t : TabSize) (r : Rule) (d : Bytes) : StandsBy t r d (judge t · r) := by
  have herror : ∀ e : IoError, e.kind ≠ .interrupted → ∀ p,
      ((judge t ⟨d, some e⟩ r).failure? p = some ⟨p, .unreadable e⟩ ↔
        ¬ ∃ f, (Detector.start t r).Meets d f) := by
    intro e he p
    rw [← Detector.judge_eq_unreadable_iff he, judge]
    cases (Detector.start t r).judge ⟨d, some e⟩ <;> simp [Verdict.failure?]
  refine ⟨fun hr p f hf more ending => ?_, fun f hf p more ending => ?_, herror,
    fun hr e he p => ?_⟩
  · exact judge_append_of_failed hr hf more ending
  · rw [judge, Detector.judge_append_of_meets hf]
    rfl
  · refine (herror e he p).mpr ?_
    rintro ⟨f, hf⟩
    exact Detector.not_meets_of_finalNewline (by rw [Detector.rule_start, hr]) d f hf

/-- What a rule finds wrong with a text is final: no more bytes and no read error change it. A rule
that no byte of a text decided does not hide an error that follows, and the last rule never does. In
a pass that is shared, every position of the list of rules has a scan of which the same holds. -/
theorem first_fault_is_final_and_errors_are_told (t : TabSize) (d : Bytes) :
    (∀ r, StandsBy t r d (judge t · r)) ∧
    ∀ (rules : List Rule) (i : Nat) (r : Rule), rules[i]? = some r →
      ∃ scan, (∀ s, (judgeShared t s rules)[i]? = some (r, scan s)) ∧ StandsBy t r d scan := by
  refine ⟨fun r => standsBy_judge t r d, fun rules i r hr => ⟨(judge t · r), fun s => ?_, ?_⟩⟩
  · rw [judgeShared_eq_map_judge, List.getElem?_map, hr]
    rfl
  · exact standsBy_judge t r d

/-- The stream breaks off behind a text that ends in one line feed. The tab has been found by then,
and the last rule, which passes the text, tells the error. -/
theorem tab_is_told_and_error_behind_it :
    let t : TabSize := ⟨4, by decide⟩
    let d : Bytes := [Byte.tab, 0x61, Byte.lineFeed]
    let e : IoError := ⟨.other, "broken"⟩
    let rules : List Rule := [.finalNewline, .tabs]
    let p : Path := [0x70]
    (rules[0]? = some .finalNewline ∧ rules[1]? = some .tabs ∧ Rule.tabs ≠ .finalNewline ∧
      e.kind ≠ .interrupted ∧
      (judge t ⟨d, none⟩ .tabs).failure? p = some ⟨p, .fault (.tabCharacter 1)⟩ ∧
      judge t ⟨d, none⟩ .finalNewline = .passed) ∧
    ((∃ v, (judgeShared t ⟨d, some e⟩ rules)[0]? = some (.finalNewline, v) ∧
        v.failure? p = some ⟨p, .unreadable e⟩) ∧
      ∃ v, (judgeShared t ⟨d, some e⟩ rules)[1]? = some (.tabs, v) ∧
        v.failure? p = some ⟨p, .fault (.tabCharacter 1)⟩) := by
  intro t d e rules p
  have hne : Rule.tabs ≠ .finalNewline := by decide
  have he : e.kind ≠ .interrupted := by decide
  have htab : (judge t ⟨d, none⟩ .tabs).failure? p = some ⟨p, .fault (.tabCharacter 1)⟩ := by decide
  have h := first_fault_is_final_and_errors_are_told t d
  obtain ⟨scan₀, hscan₀, hlast⟩ := h.2 rules 0 .finalNewline rfl
  obtain ⟨scan₁, hscan₁, htabs⟩ := h.2 rules 1 .tabs rfl
  have halone : (scan₁ ⟨d, none⟩).failure? p = some ⟨p, .fault (.tabCharacter 1)⟩ := by
    have heq : some (Rule.tabs, scan₁ ⟨d, none⟩) = some (.tabs, judge t ⟨d, none⟩ .tabs) :=
      (hscan₁ ⟨d, none⟩).symm.trans (by decide)
    rw [(Prod.mk.inj (Option.some.inj heq)).2]
    exact htab
  refine ⟨⟨rfl, rfl, hne, he, htab, by decide⟩, ⟨_, hscan₀ _, hlast.error_told_last rfl e he p⟩,
    _, hscan₁ _, ?_⟩
  have hmore := htabs.failure_stays hne p _ halone [] (some e)
  rwa [List.append_nil] at hmore

end Rule

end TextHygiene
