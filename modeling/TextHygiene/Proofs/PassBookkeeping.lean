import TextHygiene.Proofs.SharedPass
import TextHygiene.Scan.Audited

/-! The books of a shared pass. Whenever a turn of its loop starts, the count is the number of lanes
without a verdict, and a lane that has its verdict is left alone from then on. At the end every lane
has one. So an audit of the pass finds no breach, and reports what the pass reports. -/

namespace TextHygiene

/-! ## Turns of the loop -/

/-- A pass as a turn of its loop finds it, and the bytes that are left then. -/
inductive Pass.Turn (t : TabSize) (rules : List Rule) (bytes : Bytes) : Pass → Bytes → Prop
  | first : Turn t rules bytes (.start t rules) bytes
  | next {p : Pass} {b : UInt8} {rest : Bytes} (turn : Turn t rules bytes p (b :: rest))
    (pending : p.pending ≠ 0) : Turn t rules bytes (p.feed b) rest

namespace Pass

variable {t : TabSize} {rules : List Rule} {bytes rest : Bytes} {p : Pass}

theorem Turn.isCounted (h : Turn t rules bytes p rest) : p.IsCounted := by
  induction h with
  | first => exact isCounted_start t rules
  | next _ _ ih => exact isCounted_feed ih _

/-- The loop that goes on from a turn is the loop that starts with the first one. -/
theorem Turn.read_eq (h : Turn t rules bytes p rest) (error? : Option IoError) :
    p.read error? rest = (start t rules).read error? bytes := by
  induction h with
  | first => rfl
  | next _ hpending ih => rw [← ih, read_cons hpending]

/-- What every byte keeps, and a read error as well, is so after the loop. -/
theorem read_induction {motive : Pass → Prop} (feed : ∀ p b, motive p → motive (p.feed b))
    (error : ∀ (p : Pass) e, motive p →
      motive ⟨p.lanes.map (·.settle fun _ => .failed (.unreadable e)), 0⟩)
    (h : motive p) (error? : Option IoError) (bytes : Bytes) : motive (p.read error? bytes) := by
  induction bytes generalizing p with
  | nil =>
    by_cases h0 : p.pending = 0
    · rwa [read_of_pending_eq_zero h0]
    cases error? with
    | some e =>
      rw [read_nil_some h0]
      exact error p e h
    | none => rwa [read_nil_none]
  | cons b rest ih =>
    by_cases h0 : p.pending = 0
    · rwa [read_of_pending_eq_zero h0]
    · rw [read_cons h0]
      exact ih (feed p b h)

/-- The count is right after the loop as well, where a read error has set it to zero. -/
theorem isCounted_read (h : p.IsCounted) (error? : Option IoError) (bytes : Bytes) :
    (p.read error? bytes).IsCounted := by
  refine read_induction (motive := IsCounted) (fun p b hp => isCounted_feed hp b)
    (fun p e _ => ?_) h error? bytes
  refine (List.countP_eq_zero.mpr fun l hl => ?_).symm
  obtain ⟨before, -, rfl⟩ := List.mem_map.mp hl
  simp [Lane.isOpen_settle]

/-! ## What becomes of the lanes -/

section

variable {i : Nat} {l : Lane}

theorem getElem?_map_settle (h : p.lanes[i]? = some l) (hl : l.isOpen = false)
    (f : Lane → Verdict) : (p.lanes.map (Lane.settle f))[i]? = some l := by
  obtain ⟨v, hv⟩ := Lane.exists_verdict_of_not_isOpen hl
  rw [List.getElem?_map, h, Option.map_some, Lane.settle_of_verdict hv]

/-- A lane that has its verdict comes out of the loop as it is, its detector included. -/
theorem getElem?_read (h : p.lanes[i]? = some l) (hl : l.isOpen = false)
    (error? : Option IoError) (bytes : Bytes) : (p.read error? bytes).lanes[i]? = some l := by
  obtain ⟨v, hv⟩ := Lane.exists_verdict_of_not_isOpen hl
  refine read_induction (motive := fun p => p.lanes[i]? = some l) (fun p b hp => ?_)
    (fun p e hp => getElem?_map_settle hp hl _) h error? bytes
  rw [lanes_feed, List.getElem?_map, hp, Option.map_some, Lane.feed_of_verdict hv]

theorem getElem?_close (h : p.lanes[i]? = some l) (hl : l.isOpen = false) :
    p.close.lanes[i]? = some l := by
  unfold close
  split
  · exact h
  · exact getElem?_map_settle h hl _

end

theorem not_isOpen_of_mem_close (h : p.IsCounted) : ∀ l ∈ p.close.lanes, l.isOpen = false := by
  intro l hl
  unfold close at hl
  split at hl
  · rename_i h0
    exact not_isOpen_of_pending_eq_zero h h0 l hl
  · obtain ⟨before, -, rfl⟩ := List.mem_map.mp hl
    exact before.isOpen_settle _

end Pass

/-! ## The audit -/

/-- What an audit knows of a lane. -/
def Lane.audited (l : Lane) : AuditedLane :=
  { rule := l.rule
    detector := if l.isOpen then some l.detector else none
    verdict := l.verdict }

def Pass.audited (p : Pass) : AuditedPass := ⟨p.lanes.map Lane.audited, p.pending⟩

theorem ok_bind {α β ε : Type} (a : α) (f : α → Except ε β) : (Except.ok a >>= f) = f a := rfl

theorem mapM_map_eq_ok {α β γ ε : Type} {f : β → Except ε γ} {g : α → β} {h : α → γ} {l : List α}
    (hf : ∀ a ∈ l, f (g a) = .ok (h a)) : (l.map g).mapM f = .ok (l.map h) := by
  induction l with
  | nil => rfl
  | cons a rest ih =>
    obtain ⟨ha, hrest⟩ := List.forall_mem_cons.mp hf
    rw [List.map_cons, List.mapM_cons, ha, ih hrest]
    rfl

namespace Lane

section

variable {l : Lane}

theorem use_audited (h : l.verdict = none) : l.audited.use = .ok l.detector := by
  simp [AuditedLane.use, audited, isOpen, h]

theorem retire_audited (h : l.verdict = none) (v : Verdict) :
    l.audited.retire v = .ok { l with verdict := some v }.audited := by
  simp [AuditedLane.retire, audited, isOpen, h]

/-- Feeding breaches nothing as long as an open lane is counted. -/
theorem feed_audited {pending : Nat} (h : l.isOpen = true → 0 < pending) (b : UInt8) :
    l.audited.feed b pending = .ok ((l.feed b).audited,
      if l.isOpen && !(l.feed b).isOpen then pending - 1 else pending) := by
  have hverdict : l.audited.verdict = l.verdict := rfl
  rw [AuditedLane.feed, hverdict]
  cases hv : l.verdict with
  | some v =>
    rw [feed_of_verdict hv]
    simp [isOpen, hv]
  | none =>
    obtain ⟨count, rfl⟩ := Nat.exists_eq_add_one.mpr (h (by simp [isOpen, hv]))
    rw [use_audited hv, ok_bind, if_neg (by simp)]
    cases hfeed : l.detector.feed b with
    | ok d =>
      have hfed : l.feed b = { l with detector := d } := by simp [feed, hv, hfeed]
      rw [hfed]
      simp [audited, isOpen, hv, pure, Except.pure]
    | error f =>
      have hfed : l.feed b = { l with verdict := some (.failed (.fault f)) } := by
        simp [feed, hv, hfeed]
      simp [hfed, retire_audited hv, AuditedLane.countDown, ok_bind, isOpen, hv, pure, Except.pure]

/-- Settling breaches nothing if an open lane has a verdict to come to. -/
theorem settle_audited {f : Lane → Verdict} {v : AuditedLane → Except Breach Verdict}
    (h : l.verdict = none → v l.audited = .ok (f l)) :
    l.audited.settle v = .ok (l.settle f).audited := by
  have hverdict : l.audited.verdict = l.verdict := rfl
  rw [AuditedLane.settle, hverdict]
  cases hv : l.verdict with
  | some w =>
    rw [settle_of_verdict hv]
    exact if_pos rfl
  | none =>
    have hsettled : l.settle f = { l with verdict := some (f l) } := by simp [settle, hv]
    rw [h hv, ok_bind, retire_audited hv, hsettled]
    exact if_neg (by simp)

theorem report_audited (h : l.isOpen = false) :
    l.audited.report = .ok (l.rule, l.verdict.getD .passed) := by
  obtain ⟨v, hv⟩ := exists_verdict_of_not_isOpen h
  simp [AuditedLane.report, audited, hv]

end

end Lane

namespace Pass

theorem audited_start (t : TabSize) (rules : List Rule) :
    (start t rules).audited = AuditedPass.start t rules := by
  simp [audited, start, AuditedPass.start, Lane.audited, Lane.isOpen]

/-- A count that covers the open lanes is never used up. -/
theorem feedLanes_audited {lanes : List Lane} {pending : Nat}
    (h : lanes.countP Lane.isOpen ≤ pending) (b : UInt8) :
    AuditedPass.feedLanes b (lanes.map Lane.audited) pending =
      .ok (feedLanes b lanes pending).audited := by
  induction lanes generalizing pending with
  | nil => rfl
  | cons l rest ih =>
    rw [List.countP_cons] at h
    have hhead : l.isOpen = true → 0 < pending := by
      intro hopen
      rw [if_pos hopen] at h
      omega
    have hrest : rest.countP Lane.isOpen ≤
        if l.isOpen && !(l.feed b).isOpen then pending - 1 else pending := by
      cases hopen : l.isOpen <;> simp [hopen] at h ⊢
      · omega
      · split <;> omega
    rw [List.map_cons, AuditedPass.feedLanes, Lane.feed_audited hhead, ok_bind]
    dsimp only
    rw [ih hrest]
    rfl

theorem feed_audited {p : Pass} (h : p.IsCounted) (b : UInt8) :
    p.audited.feed b = .ok (p.feed b).audited :=
  feedLanes_audited (Nat.le_of_eq h.symm) b

theorem settle_audited {f : Lane → Verdict} {v : AuditedLane → Except Breach Verdict}
    (h : ∀ l : Lane, l.verdict = none → v l.audited = .ok (f l)) (pending : Nat) (p : Pass) :
    p.audited.settle v pending = .ok (mk (p.lanes.map (Lane.settle f)) pending).audited := by
  rw [AuditedPass.settle, audited, mapM_map_eq_ok fun l _ => Lane.settle_audited (h l), ok_bind]
  simp [audited, pure, Except.pure]

theorem read_audited {p : Pass} (h : p.IsCounted) (error? : Option IoError) (bytes : Bytes) :
    p.audited.read error? bytes = .ok (p.read error? bytes).audited := by
  induction bytes generalizing p with
  | nil =>
    by_cases h0 : p.pending = 0
    · rw [read_of_pending_eq_zero h0]
      exact if_pos h0
    refine (if_neg h0).trans ?_
    cases error? with
    | some e =>
      rw [read_nil_some h0]
      exact settle_audited (fun _ _ => rfl) 0 p
    | none => rw [read_nil_none]
  | cons b rest ih =>
    by_cases h0 : p.pending = 0
    · rw [read_of_pending_eq_zero h0]
      exact if_pos h0
    refine (if_neg h0).trans ?_
    rw [feed_audited h, read_cons h0]
    exact ih (isCounted_feed h b)

theorem close_audited (p : Pass) : p.audited.close = .ok p.close.audited := by
  rw [AuditedPass.close, close]
  by_cases h0 : p.pending = 0
  · rw [if_pos h0]
    exact if_pos h0
  · rw [if_neg h0]
    refine (if_neg h0).trans (settle_audited (fun l hl => ?_) p.pending p)
    rw [Lane.use_audited hl]
    rfl

theorem verdicts_audited {p : Pass} (h : ∀ l ∈ p.lanes, l.isOpen = false) :
    p.audited.verdicts = .ok p.verdicts :=
  mapM_map_eq_ok fun l hl => Lane.report_audited (h l hl)

end Pass

/-- An audit finds no breach, and reports what the pass reports. -/
theorem judgeAudited_eq_ok (t : TabSize) (s : Stream) (rules : List Rule) :
    judgeAudited t s rules = .ok (judgeShared t s rules) := by
  have hstart := Pass.isCounted_start t rules
  have hread := Pass.isCounted_read hstart s.error? s.bytes
  rw [judgeAudited, ← Pass.audited_start, Pass.read_audited hstart, ok_bind, Pass.close_audited,
    ok_bind]
  exact Pass.verdicts_audited (Pass.not_isOpen_of_mem_close hread)

/-! ## The books -/

namespace Pass

theorem map_rule_close_read (t : TabSize) (s : Stream) (rules : List Rule) :
    (((start t rules).read s.error? s.bytes).close.lanes.map Lane.rule) = rules := by
  have hverdicts := congrArg (List.map Prod.fst) (judgeShared_eq_map_judge t s rules)
  simpa [judgeShared, verdicts, Function.comp_def] using hverdicts

/-- A shared pass keeps its books right. Whenever a turn of its loop starts, the count is the number
of lanes without a verdict, and a lane that has its verdict comes out in the end as it is then, with
the same verdict and with a detector that no byte has reached. In the end there is one lane for each
rule of the list, and it has a verdict. An audit, which stops where one would be taken off a count of
zero, a second verdict be given, a detector be used that has been given up or a verdict be missing,
comes to its end and reports the same verdicts. -/
theorem keeps_its_books (t : TabSize) (s : Stream) (rules : List Rule) :
    let last := ((start t rules).read s.error? s.bytes).close
    (∀ p rest, Turn t rules s.bytes p rest →
      p.pending = p.lanes.countP Lane.isOpen ∧
      ∀ (i : Nat) (l : Lane), p.lanes[i]? = some l → l.isOpen = false →
        last.lanes[i]? = some l) ∧
    (last.lanes.map Lane.rule = rules ∧ ∀ l ∈ last.lanes, l.isOpen = false) ∧
    judgeAudited t s rules = .ok (judgeShared t s rules) := by
  intro last
  refine ⟨fun p rest hturn => ⟨hturn.isCounted, fun i l hi hl => ?_⟩,
    ⟨map_rule_close_read t s rules, ?_⟩, judgeAudited_eq_ok t s rules⟩
  · have hread := getElem?_read hi hl s.error? rest
    rw [hturn.read_eq] at hread
    exact getElem?_close hread hl
  · exact not_isOpen_of_mem_close (isCounted_read (isCounted_start t rules) s.error? s.bytes)

/-- A tab makes two of three lanes retire in one turn. The third one is pending when the stream breaks
off behind the next byte. -/
theorem two_lanes_retire_in_a_turn :
    let t : TabSize := ⟨4, by decide⟩
    let e : IoError := ⟨.other, "broken"⟩
    let s : Stream := ⟨[Byte.tab, Byte.lineFeed], some e⟩
    let rules : List Rule := [.tabs, .finalNewline, .tabs]
    let tab : Verdict := .failed (.fault (.tabCharacter 1))
    let p := (start t rules).feed Byte.tab
    let l : Lane := { rule := .tabs, detector := .tabs 1, verdict := some tab }
    let last := ((start t rules).read s.error? s.bytes).close
    (Turn t rules s.bytes p [Byte.lineFeed] ∧ p.lanes[2]? = some l ∧ l.isOpen = false) ∧
    (p.pending = 1 ∧ p.pending = p.lanes.countP Lane.isOpen ∧ last.lanes[2]? = some l) ∧
    judgeAudited t s rules =
      .ok [(.tabs, tab), (.finalNewline, .failed (.unreadable e)), (.tabs, tab)] := by
  intro t e s rules tab p l last
  have hturn : Turn t rules s.bytes p [Byte.lineFeed] := .next .first (by decide)
  have hl : p.lanes[2]? = some l := by decide
  have hretired : l.isOpen = false := rfl
  obtain ⟨hbooks, -, haudit⟩ := keeps_its_books t s rules
  obtain ⟨hcount, hstays⟩ := hbooks p _ hturn
  refine ⟨⟨hturn, hl, hretired⟩, ⟨by decide, hcount, hstays 2 l hl hretired⟩, ?_⟩
  rw [haudit]
  exact congrArg Except.ok (by decide)

end Pass

end TextHygiene
