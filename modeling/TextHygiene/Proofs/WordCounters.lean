import TextHygiene.Detector.Word
import TextHygiene.Proofs.LineLocality

/-! Detectors whose counters are words. A byte adds at most one to a counter, and counting starts no
higher than at 1, so on a text of fewer than `2 ^ 64 - 1` bytes no counter leaves its word. There the
detectors in words do what the detectors do; one more byte can bring a line number to `2 ^ 64`. -/

namespace TextHygiene.Detector

/-! ## Words -/

theorem word_lt (n : Nat) : word n < UInt64.size := (UInt64.ofNat n).toNat_lt_size

theorem word_eq_self_iff {n : Nat} : word n = n ↔ n < UInt64.size :=
  ⟨fun h => h ▸ word_lt n, fun h => UInt64.toNat_ofNat_of_lt' h⟩

theorem inWords_eq_self_iff {d : Detector} : d.inWords = d ↔ ∀ n ∈ d.counters, n < UInt64.size := by
  cases d <;> simp [inWords, counters, word_eq_self_iff]

variable {d d' : Detector} {t : TabSize} {r : Rule} {k : Nat} {bs : Bytes}

/-! ## What bytes add to the counters -/

theorem counters_feed_le {b : UInt8} (hd : ∀ n ∈ d.counters, n ≤ k) (h : d.feed b = .ok d') :
    ∀ n ∈ d'.counters, n ≤ k + 1 := by
  cases d <;> simp only [feed] at h <;> split_ifs at h <;> cases h <;>
    simp [counters] at hd ⊢ <;> omega

theorem counters_run_le (hd : ∀ n ∈ d.counters, n ≤ k) (h : d.run bs = .ok d') :
    ∀ n ∈ d'.counters, n ≤ k + bs.length := by
  refine run_induction (motive := fun bs e => ∀ n ∈ e.counters, n ≤ k + bs.length) hd ?_ h
  intro before b d₁ d₂ ih hfeed
  rw [List.length_append, List.length_singleton, ← Nat.add_assoc]
  exact counters_feed_le ih hfeed

theorem counters_start_le (t : TabSize) (r : Rule) : ∀ n ∈ (start t r).counters, n ≤ 1 := by
  cases r <;> simp [start, counters]

/-- As long as no counter can leave its word, words make no difference. -/
theorem runInWords_eq_run (hd : ∀ n ∈ d.counters, n ≤ k) (hlength : k + bs.length < UInt64.size) :
    d.runInWords bs = d.run bs := by
  induction bs generalizing d k with
  | nil => rfl
  | cons b rest ih =>
    rw [runInWords, run]
    cases hfeed : d.feed b with
    | error f => rfl
    | ok next =>
      have hnext := counters_feed_le hd hfeed
      rw [List.length_cons] at hlength
      have hwords : next.inWords = next := inWords_eq_self_iff.mpr fun n hn => by
        have hle := hnext n hn
        omega
      simp only [hwords]
      exact ih hnext (by omega)

theorem judgeInWords_of_runInWords {ending : Option IoError} (h : d.runInWords bs = d.run bs) :
    d.judgeInWords ⟨bs, ending⟩ = d.judge ⟨bs, ending⟩ := by
  have hjudge := judge_append d bs [] ending
  rw [List.append_nil] at hjudge
  cases hrun : d.run bs with
  | error f => simp [judgeInWords, h, hjudge, hrun]
  | ok reached => simp [judgeInWords, h, hjudge, hrun]

/-- The tab size is carried along unchanged. -/
theorem unit_of_run {unit : TabSize} {line spaces : Nat} {leading : Bool}
    (h : (start t r).run bs = .ok (indentation unit line spaces leading)) : unit = t := by
  have hstart := lineStart_run h
  rw [lineStart_start] at hstart
  cases r <;> cases hstart
  rfl

/-- Line feeds alone take every detector that counts lines as many lines down. -/
theorem run_replicate_lineFeed (t : TabSize) (hr : r ≠ .finalNewline) (n : Nat) :
    (start t r).run (List.replicate n Byte.lineFeed) = .ok ((start t r).below n) := by
  induction n with
  | zero => rw [below_zero]; rfl
  | succ n ih =>
    rw [List.replicate_succ', run_concat, ih, ← below_below]
    cases r with
    | finalNewline => exact absurd rfl hr
    | _ => rfl

/-! ## Texts that words are enough for -/

/-- The counters of a detector never leave their words on a text of fewer than `2 ^ 64 - 1` bytes.
After each byte of it the detector with counters in words stands where the detector stands, or both
have met the same fault, and they say the same of the text up to there, whatever ends it. A tab size
that is a word itself never becomes zero in words, so what is left of the spaces by its levels is in
words what it is in numbers. -/
theorem counters_never_leave_their_words {t : TabSize} (ht : t.width < UInt64.size) {d : Bytes}
    (hd : d.length < UInt64.size - 1) (r : Rule) {before : Bytes} (hbefore : before <+: d) :
    (start t r).runInWords before = (start t r).run before ∧
    (∀ ending, (start t r).judgeInWords ⟨before, ending⟩ = r.judge t ⟨before, ending⟩) ∧
    ∀ reached, (start t r).run before = .ok reached →
      (∀ n ∈ reached.counters, n < UInt64.size) ∧
      ∀ unit line spaces leading, reached = indentation unit line spaces leading →
        UInt64.ofNat unit.width ≠ 0 ∧
        (UInt64.ofNat spaces % UInt64.ofNat unit.width).toNat = spaces % unit.width := by
  have hlength : 1 + before.length < UInt64.size := by
    have hle := hbefore.length_le
    omega
  have hrun := runInWords_eq_run (counters_start_le t r) hlength
  refine ⟨hrun, fun ending => judgeInWords_of_runInWords hrun, fun reached hreached => ?_⟩
  have hcounters : ∀ n ∈ reached.counters, n < UInt64.size := fun n hn =>
    Nat.lt_of_le_of_lt (counters_run_le (counters_start_le t r) hreached n hn) hlength
  refine ⟨hcounters, ?_⟩
  rintro unit line spaces leading rfl
  obtain rfl := unit_of_run hreached
  have hunit : (UInt64.ofNat unit.width).toNat = unit.width := UInt64.toNat_ofNat_of_lt' ht
  have hspaces : (UInt64.ofNat spaces).toNat = spaces :=
    UInt64.toNat_ofNat_of_lt' (hcounters spaces (by simp [counters]))
  refine ⟨fun hzero => ?_, by rw [UInt64.toNat_mod, hunit, hspaces]⟩
  rw [hzero] at hunit
  exact Nat.ne_of_gt unit.width_pos hunit.symm

/-- The longest text of line feeds alone that words are enough for, and the widest indentation. The
line number comes to the last word. -/
theorem last_word_is_reached :
    let t : TabSize := ⟨UInt64.size - 1, by decide⟩
    let d : Bytes := List.replicate (UInt64.size - 2) Byte.lineFeed
    let reached := indentation t (UInt64.size - 1) 0 true
    (t.width < UInt64.size ∧ d.length < UInt64.size - 1 ∧ d <+: d ∧
      (start t .indentation).run d = .ok reached) ∧
    (start t .indentation).runInWords d = .ok reached ∧
    (start t .indentation).judgeInWords ⟨d, none⟩ = Rule.indentation.judge t ⟨d, none⟩ ∧
    (∀ n ∈ reached.counters, n < UInt64.size) ∧
    UInt64.ofNat t.width ≠ 0 ∧
    (UInt64.ofNat 0 % UInt64.ofNat t.width).toNat = 0 % t.width := by
  intro t d reached
  have ht : t.width < UInt64.size := by decide
  have hd : d.length < UInt64.size - 1 := by
    rw [List.length_replicate]
    decide
  have hreached : (start t .indentation).run d = .ok reached :=
    run_replicate_lineFeed t (by decide) (UInt64.size - 2)
  obtain ⟨hrun, hjudge, hwords⟩ :=
    counters_never_leave_their_words ht hd .indentation d.prefix_rfl
  obtain ⟨hcounters, hunit⟩ := hwords reached hreached
  exact ⟨⟨ht, hd, d.prefix_rfl, hreached⟩, hrun.trans hreached, hjudge none, hcounters,
    hunit t _ 0 true rfl⟩

/-! ## Texts that are too long for words -/

theorem inWords_inWords (d : Detector) : d.inWords.inWords = d.inWords := by
  rw [inWords_eq_self_iff]
  cases d <;> simp [inWords, counters, word_lt]

/-- What starts in words stays in words, however long the text is. -/
theorem inWords_of_runInWords (hd : d.inWords = d) (h : d.runInWords bs = .ok d') :
    d'.inWords = d' := by
  induction bs generalizing d with
  | nil =>
    obtain rfl := Except.ok.inj h
    exact hd
  | cons b rest ih =>
    rw [runInWords] at h
    cases hfeed : d.feed b with
    | error f => simp [hfeed] at h
    | ok next =>
      rw [hfeed] at h
      exact ih next.inWords_inWords h

/-- The bound is the best one: on one line feed more, every detector that counts lines comes to a line
whose number no word holds, so that in words it stands elsewhere. -/
theorem line_leaves_its_word (t : TabSize) (hr : r ≠ .finalNewline) :
    let d : Bytes := List.replicate (UInt64.size - 1) Byte.lineFeed
    (start t r).runInWords d ≠ (start t r).run d := by
  intro d hsame
  have hstart : (start t r).inWords = start t r := inWords_eq_self_iff.mpr fun n hn =>
    Nat.lt_of_le_of_lt (counters_start_le t r n hn) (by decide)
  have hrun : (start t r).run d = .ok ((start t r).below (UInt64.size - 1)) :=
    run_replicate_lineFeed t hr _
  have hwords := inWords_of_runInWords hstart (hsame.trans hrun)
  have hline : 1 + (UInt64.size - 1) ∈ ((start t r).below (UInt64.size - 1)).counters := by
    cases r with
    | finalNewline => exact absurd rfl hr
    | _ => exact List.mem_cons_self
  exact absurd (inWords_eq_self_iff.mp hwords _ hline) (by decide)

end TextHygiene.Detector
