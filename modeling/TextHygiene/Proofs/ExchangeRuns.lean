import Mathlib.Data.List.Perm.Basic
import TextHygiene.Proofs.SurveyAgreement
import TextHygiene.Survey.Workers

/-! Runs of a parallel check. Some step is possible as long as the collector is in its loop, every
step brings the end nearer, and a run that has come to its end has received the result of every
position once; so no run gets stuck, none goes on forever, and none ends early. -/

namespace TextHygiene.Exchange

variable {α : Type} {workers total : Nat} {result : Nat → List α} {e e' : Exchange α}

/-! ## Some step is possible -/

/-- The collector can take the first message, or else somebody behind it can go on: a worker that
holds a result, as the channel has room, an idle worker, or the owner of the channel. -/
theorem exists_step (hworkers : 0 < workers) (result : Nat → List α) (hactive : e.isDone = false) :
    ∃ e', Step workers result e e' := by
  cases hchannel : e.channel with
  | cons message rest => exact ⟨_, .receive hactive hchannel⟩
  | nil =>
    cases hbusy : e.busy with
    | cons pos busy =>
      have hroom : e.channel.length < channelCapacity := by simp [hchannel, channelCapacity]
      exact ⟨_, .send (hbusy ▸ List.mem_cons_self) hroom⟩
    | nil =>
      cases hwaiting : e.waiting with
      | cons pos waiting =>
        have hidle : e.busy.length < workers := by
          rw [hbusy]
          exact hworkers
        exact ⟨_, .take (hwaiting ▸ List.mem_cons_self) hidle⟩
      | nil =>
        cases hclosed : e.isClosed with
        | false => exact ⟨_, .close hwaiting hbusy hclosed⟩
        | true => exact ⟨_, .leave hactive hchannel hclosed⟩

/-! ## Every step brings the end nearer -/

/-- How many steps are still to come: a position is taken, sent and received, the channel is closed,
and the collector leaves its loop. -/
def remaining (e : Exchange α) : Nat :=
  3 * e.waiting.length + 2 * e.busy.length + e.channel.length +
    (if e.isClosed then 0 else 1) + (if e.isDone then 0 else 1)

theorem remaining_start : (start total : Exchange α).remaining = 3 * total + 2 := by
  simp [remaining, start]

theorem remaining_of_step (h : Step workers result e e') : e.remaining = e'.remaining + 1 := by
  cases h with
  | take waits idle =>
    have hlength := List.length_erase_add_one waits
    simp only [remaining, List.length_cons]
    omega
  | send works room =>
    have hlength := List.length_erase_add_one works
    simp only [remaining, List.length_append, List.length_singleton]
    omega
  | close taken sent unclosed => simp [remaining, unclosed]; omega
  | receive active first =>
    simp only [remaining, first, List.length_cons]
    omega
  | leave active empty closed => simp [remaining, active]

/-- A run of so many steps. -/
inductive Run (workers : Nat) (result : Nat → List α) : Nat → Exchange α → Exchange α → Prop
  | none (e : Exchange α) : Run workers result 0 e e
  | step {n : Nat} {e e' e'' : Exchange α} : Run workers result n e e' →
    Step workers result e' e'' → Run workers result (n + 1) e e''

theorem remaining_of_run {n : Nat} (h : Run workers result n e e') :
    e.remaining = e'.remaining + n := by
  induction h with
  | none => rfl
  | step _ hstep ih =>
    have hlast := remaining_of_step hstep
    omega

/-! ## What every step keeps -/

/-- The positions of a check, from where no worker has taken them to where they are received. -/
def positions (e : Exchange α) : List Nat :=
  e.waiting ++ (e.busy ++ (e.channel.map Prod.fst ++ e.received))

/-- A step moves at most one position, to the next place. -/
theorem positions_perm_of_step (h : Step workers result e e') : e'.positions.Perm e.positions := by
  cases h with
  | @take pos waits idle =>
    refine List.perm_middle.trans ?_
    exact (List.perm_cons_erase waits).symm.append_right _
  | @send pos works room =>
    refine List.Perm.append_left _ ?_
    have hchannel : ((e.channel ++ [(pos, result pos)]).map Prod.fst ++ e.received).Perm
        (pos :: (e.channel.map Prod.fst ++ e.received)) := by
      rw [List.map_append, List.append_assoc]
      exact List.perm_middle
    refine (hchannel.append_left _).trans (List.perm_middle.trans ?_)
    exact (List.perm_cons_erase works).symm.append_right _
  | close taken sent unclosed => exact List.Perm.refl _
  | receive active first =>
    refine List.Perm.append_left _ (List.Perm.append_left _ ?_)
    rw [first]
    exact List.perm_middle
  | leave active empty closed => exact List.Perm.refl _

/-- Each position is in one place. The collector is as the messages that it received have made it,
and the channel is closed only when no more messages can come. -/
structure IsSound (total : Nat) (result : Nat → List α) (e : Exchange α) : Prop where
  positions_perm : e.positions.Perm (List.range total)
  messages : ∀ message ∈ e.channel, message = (message.1, result message.1)
  collector_eq : e.collector =
    Collector.receiveAll (e.received.reverse.map fun pos => (pos, result pos))
  closed : e.isClosed = true → e.waiting = [] ∧ e.busy = []
  done : e.isDone = true → e.isClosed = true ∧ e.channel = []

theorem isSound_start (total : Nat) (result : Nat → List α) :
    IsSound total result (start total) where
  positions_perm := by simp [start, positions]
  messages := by simp [start]
  collector_eq := rfl
  closed h := by cases h
  done h := by cases h

theorem isSound_step (h : IsSound total result e) (hstep : Step workers result e e') :
    IsSound total result e' := by
  have hperm := (positions_perm_of_step hstep).trans h.positions_perm
  cases hstep with
  | @take pos waits idle =>
    have hopen : e.isClosed ≠ true := fun hclosed => by
      rw [(h.closed hclosed).1] at waits
      cases waits
    exact { h with positions_perm := hperm, closed := fun hclosed => absurd hclosed hopen }
  | @send pos works room =>
    have hopen : e.isClosed ≠ true := fun hclosed => by
      rw [(h.closed hclosed).2] at works
      cases works
    refine { h with
      positions_perm := hperm
      messages := fun message hmem => ?_
      closed := fun hclosed => absurd hclosed hopen
      done := fun hdone => absurd (h.done hdone).1 hopen }
    rcases List.mem_append.mp hmem with hmem | hmem
    · exact h.messages message hmem
    · rw [List.mem_singleton.mp hmem]
  | close taken sent unclosed =>
    have hactive : e.isDone ≠ true := fun hdone => by
      rw [(h.done hdone).1] at unclosed
      cases unclosed
    exact { h with
      closed := fun _ => ⟨taken, sent⟩
      done := fun hdone => absurd hdone hactive }
  | @receive message rest active first =>
    have hmessage : message = (message.1, result message.1) :=
      h.messages message (first ▸ List.mem_cons_self)
    refine { h with
      positions_perm := hperm
      messages := fun m hm => h.messages m (first ▸ List.mem_cons_of_mem _ hm)
      collector_eq := ?_
      done := fun hdone => ?_ }
    · rw [h.collector_eq, List.reverse_cons, List.map_append, Collector.receiveAll,
        Collector.receiveAll, List.foldl_append, List.map_singleton, ← hmessage]
      rfl
    · rw [active] at hdone
      cases hdone
  | leave active empty closed => exact { h with done := fun _ => ⟨closed, empty⟩ }

theorem isSound_of_reachable (h : Reachable workers total result e) : IsSound total result e := by
  induction h with
  | start => exact isSound_start total result
  | step _ hstep ih => exact isSound_step ih hstep

/-! ## The end of a run -/

section

variable (h : IsSound total result e) (hdone : e.isDone = true)
include h hdone

/-- When the collector has left its loop, it has received each position once. -/
theorem received_perm : e.received.Perm (List.range total) := by
  obtain ⟨hclosed, hchannel⟩ := h.done hdone
  obtain ⟨hwaiting, hbusy⟩ := h.closed hclosed
  have hperm := h.positions_perm
  rwa [positions, hwaiting, hbusy, hchannel] at hperm

theorem not_step : ¬ Step workers result e e' := by
  obtain ⟨hclosed, hchannel⟩ := h.done hdone
  obtain ⟨hwaiting, hbusy⟩ := h.closed hclosed
  intro hstep
  cases hstep with
  | take waits => exact absurd waits (hwaiting ▸ List.not_mem_nil)
  | send works => exact absurd works (hbusy ▸ List.not_mem_nil)
  | close _ _ unclosed => exact Bool.noConfusion (hclosed.symm.trans unclosed)
  | receive active => exact Bool.noConfusion (hdone.symm.trans active)
  | leave active => exact Bool.noConfusion (hdone.symm.trans active)

theorem next_eq : e.collector.next = total := by
  have hperm := received_perm h hdone
  have hdistinct : e.received.reverse.Nodup :=
    List.nodup_reverse.mpr (hperm.nodup_iff.mpr List.nodup_range)
  obtain ⟨horder, hdrained⟩ := Collector.isInOrder_receiveAll result hdistinct
  rw [← h.collector_eq] at horder hdrained
  have hmem : ∀ pos, pos ∈ e.received.reverse ↔ pos < total := fun pos => by
    rw [List.mem_reverse, hperm.mem_iff, List.mem_range]
  exact Collector.next_eq_of_all_received horder hdrained (fun pos => (hmem pos).mp)
    fun pos => (hmem pos).mpr

theorem finish_eq : e.collector.finish total = .ok ((List.range total).flatMap result) := by
  rw [h.collector_eq]
  exact Collector.finish_receiveAll_of_perm result
    ((List.reverse_perm _).trans (received_perm h hdone))

end

/-- Such a run is what a survey by many threads is about: with the order in which the messages were
received, the survey comes to what the collector hands on. -/
theorem parallel_eq_of_reachable (fs : FileSystem) (t : TabSize) (rules : List Rule)
    (engine : Engine) (files : List Survey.Candidate) {e : Exchange Finding}
    (h : Reachable workers files.length (Survey.resultAt fs t rules files) e)
    (hdone : e.isDone = true) :
    Survey.parallel fs t rules engine files e.received.reverse =
      (e.collector.finish files.length).mapError (.finishedEarly · files.length) := by
  have hsound := isSound_of_reachable h
  have harrival := (List.reverse_perm _).trans (received_perm hsound hdone)
  rw [Survey.parallel_eq fs t rules engine files harrival, finish_eq hsound hdone,
    Survey.flatMap_resultAt]
  rfl

/-- A check in parallel never gets stuck, takes a bounded number of steps, and when no step is
possible any more the collector has received the result of every position once and hands on all of
them in order, so that it never reports an early end. -/
theorem every_run_ends_with_all_results (hworkers : 0 < workers) (total : Nat)
    (result : Nat → List α) :
    (∀ e, Reachable workers total result e → e.isDone = false →
      ∃ e', Step workers result e e') ∧
    (∀ n e, Run workers result n (start total) e → n ≤ 3 * total + 2) ∧
    (∀ run : Nat → Exchange α, ¬ ∀ n, Step workers result (run n) (run (n + 1))) ∧
    ∀ e, Reachable workers total result e → (∀ e', ¬ Step workers result e e') →
      e.isDone = true ∧ e.channel = [] ∧ e.received.Perm (List.range total) ∧
      e.collector.next = total ∧
      (e.collector.finish total).mapError (Survey.Problem.finishedEarly · total) =
        .ok ((List.range total).flatMap result) := by
  refine ⟨fun e _ => exists_step hworkers result, fun n e hrun => ?_, fun run hsteps => ?_,
    fun e hreachable hstuck => ?_⟩
  · have hremaining := remaining_of_run hrun
    rw [remaining_start] at hremaining
    omega
  · have hrun : ∀ n, Run workers result n (run 0) (run n) := by
      intro n
      induction n with
      | zero => exact .none _
      | succ n ih => exact .step ih (hsteps n)
    have hremaining := remaining_of_run (hrun ((run 0).remaining + 1))
    omega
  · have hdone : e.isDone = true := by
      by_contra hactive
      obtain ⟨e', hstep⟩ := exists_step hworkers result (Bool.not_eq_true _ ▸ hactive)
      exact hstuck e' hstep
    have hsound := isSound_of_reachable hreachable
    refine ⟨hdone, (hsound.done hdone).2, received_perm hsound hdone, next_eq hsound hdone, ?_⟩
    rw [finish_eq hsound hdone]
    rfl

/-- Two workers of which the one with the second position is faster: its result is received first,
and in the end both results are there in order. -/
theorem faster_worker_is_received_first :
    let result : Nat → List Nat := fun pos => [10 * pos]
    ∃ e : Exchange Nat, (0 < 2 ∧ Reachable 2 2 result e ∧ ∀ e', ¬ Step 2 result e e') ∧
      e.received = [0, 1] ∧
      (e.collector.finish 2).mapError (Survey.Problem.finishedEarly · 2) = .ok [0, 10] := by
  intro result
  have taken : Reachable 2 2 result { waiting := [], busy := [1, 0] } :=
    .step (.step .start (@Step.take Nat 2 result _ 0 (by decide) (by decide)))
      (@Step.take Nat 2 result _ 1 (by decide) (by decide))
  have second : Reachable 2 2 result
      { waiting := [], busy := [0], received := [1], collector := .receive {} (1, [10]) } :=
    .step (.step taken (@Step.send Nat 2 result _ 1 (by decide) (by decide)))
      (@Step.receive Nat 2 result _ (1, [10]) [] rfl rfl)
  have first : Reachable 2 2 result
      { waiting := [], channel := [(0, [0])], isClosed := true, received := [1]
        collector := .receive {} (1, [10]) } :=
    .step (.step second (@Step.send Nat 2 result _ 0 (by decide) (by decide))) (.close rfl rfl rfl)
  have last : Reachable 2 2 result
      { waiting := [], isClosed := true, received := [0, 1], isDone := true
        collector := .receive (.receive {} (1, [10])) (0, [0]) } :=
    .step (.step first (@Step.receive Nat 2 result _ (0, [0]) [] rfl rfl)) (.leave rfl rfl rfl)
  have stuck : ∀ e', ¬ Step 2 result _ e' := fun e' =>
    not_step (isSound_of_reachable last) rfl
  obtain ⟨-, -, -, hend⟩ := every_run_ends_with_all_results (by decide : 0 < 2) 2 result
  obtain ⟨-, -, -, -, hfinish⟩ := hend _ last stuck
  exact ⟨_, ⟨by decide, last, stuck⟩, rfl, hfinish⟩

end TextHygiene.Exchange
