import TextHygiene.Survey

/-! The collector puts results back in order, whatever the order in which they arrive. After every
message it has handed on the results before the first gap and holds back the rest; at the end it
has everything, or it says at which position the first result is missing. -/

namespace TextHygiene.Collector

variable {α : Type} {result : Nat → List α} {received : List Nat} {c : Collector α}

/-! ## What every message keeps -/

/-- What the collector knows when the results of the positions `received` are in: everything
before `next` is handed on, and the buffer holds what is ahead. -/
structure IsInOrder (result : Nat → List α) (received : List Nat) (c : Collector α) : Prop where
  gathered_eq : c.gathered = (List.range c.next).flatMap result
  mem_received_iff : ∀ pos, pos ∈ received ↔ pos < c.next ∨ pos ∈ c.buffer.map Prod.fst
  next_le : ∀ message ∈ c.buffer, c.next ≤ message.1
  held_eq : ∀ message ∈ c.buffer, message.2 = result message.1

/-- The collector holds nothing back that it could hand on. -/
def IsDrained (c : Collector α) : Prop := c.next ∉ c.buffer.map Prod.fst

@[simp] theorem mem_takeEntry {pos : Nat} {buffer : List (Nat × List α)} {message : Nat × List α} :
    message ∈ takeEntry pos buffer ↔ message ∈ buffer ∧ message.1 ≠ pos := by
  simp [takeEntry]

theorem takeEntry_of_notMem {pos : Nat} {buffer : List (Nat × List α)}
    (h : pos ∉ buffer.map Prod.fst) : takeEntry pos buffer = buffer := by
  rw [takeEntry, List.filter_eq_self]
  intro message hm
  have hne : message.1 ≠ pos := fun e => h (e ▸ List.mem_map_of_mem hm)
  simpa using hne

theorem lookup_eq_none_iff_isDrained : c.buffer.lookup c.next = none ↔ c.IsDrained := by
  rw [List.lookup_eq_none_iff, IsDrained, List.mem_map]
  constructor
  · rintro h ⟨message, hm, e⟩
    simpa [e] using h message hm
  · intro h message hm
    have hne : c.next ≠ message.1 := fun e => h ⟨message, hm, e.symm⟩
    simpa using hne

theorem mem_buffer_of_lookup {pos : Nat} {buffer : List (Nat × List α)} {found : List α}
    (h : buffer.lookup pos = some found) : (pos, found) ∈ buffer := by
  obtain ⟨l, r, rfl, -⟩ := List.lookup_eq_some_iff.mp h
  simp

theorem isInOrder_empty (result : Nat → List α) : IsInOrder result [] {} :=
  ⟨rfl, by simp, by simp, by simp⟩

theorem isDrained_empty : IsDrained ({} : Collector α) := by simp [IsDrained]

/-- Handing on the result at `next` moves it from the buffer to the gathered results. -/
theorem isInOrder_advance (h : c.IsInOrder result received) {found : List α}
    (hf : c.buffer.lookup c.next = some found) :
    IsInOrder result received
      ⟨c.next + 1, takeEntry c.next c.buffer, c.gathered ++ found⟩ := by
  have hm := mem_buffer_of_lookup hf
  have hfound : found = result c.next := h.held_eq _ hm
  constructor
  · simp [h.gathered_eq, hfound, List.range_succ]
  · intro pos
    rw [h.mem_received_iff pos]
    simp only [List.mem_map, mem_takeEntry]
    by_cases hp : pos = c.next
    · subst hp
      exact iff_of_true (.inr ⟨_, hm, rfl⟩) (.inl (Nat.lt_succ_self _))
    · constructor
      · rintro (hlt | ⟨message, hb, rfl⟩)
        · exact .inl (Nat.lt_succ_of_lt hlt)
        · exact .inr ⟨message, ⟨hb, hp⟩, rfl⟩
      · rintro (hlt | ⟨message, ⟨hb, -⟩, rfl⟩)
        · exact .inl (by omega)
        · exact .inr ⟨message, hb, rfl⟩
  · intro message hb
    obtain ⟨hb, hne⟩ := mem_takeEntry.mp hb
    exact Nat.lt_of_le_of_ne (h.next_le message hb) (Ne.symm hne)
  · intro message hb
    exact h.held_eq message (mem_takeEntry.mp hb).1

theorem drain_of_lookup_eq_none (hn : c.buffer.lookup c.next = none) : c.drain = c := by
  rw [drain]
  split
  · rfl
  · rename_i found hf
    rw [hn] at hf
    cases hf

theorem drain_of_lookup_eq_some {found : List α} (hf : c.buffer.lookup c.next = some found) :
    c.drain = drain ⟨c.next + 1, takeEntry c.next c.buffer, c.gathered ++ found⟩ := by
  rw [drain]
  split
  · rename_i hn
    rw [hn] at hf
    cases hf
  · rename_i found' hf'
    obtain rfl : found = found' := Option.some.inj (hf.symm.trans hf')
    rfl

theorem isInOrder_drain (h : c.IsInOrder result received) :
    c.drain.IsInOrder result received ∧ c.drain.IsDrained := by
  induction c using drain.induct with
  | case1 c hn =>
    rw [drain_of_lookup_eq_none hn]
    exact ⟨h, lookup_eq_none_iff_isDrained.mp hn⟩
  | case2 c found hf ih =>
    rw [drain_of_lookup_eq_some hf]
    exact ih (isInOrder_advance h hf)

/-- A new result keeps the order, and afterwards `next` is not held back. -/
theorem isInOrder_receive (h : c.IsInOrder result received) {pos : Nat}
    (fresh : pos ∉ received) :
    (c.receive (pos, result pos)).IsInOrder result (pos :: received) ∧
      (c.receive (pos, result pos)).IsDrained := by
  have hout : ¬ (pos < c.next ∨ pos ∈ c.buffer.map Prod.fst) :=
    fun hin => fresh ((h.mem_received_iff pos).mpr hin)
  obtain ⟨hle, hbuffer⟩ := not_or.mp hout
  rw [receive, takeEntry_of_notMem hbuffer]
  apply isInOrder_drain
  constructor
  · exact h.gathered_eq
  · intro q
    rw [List.mem_cons, h.mem_received_iff q, List.map_cons, List.mem_cons]
    exact or_left_comm
  · intro message hm
    rcases List.mem_cons.mp hm with rfl | hm
    · exact Nat.le_of_not_lt hle
    · exact h.next_le message hm
  · intro message hm
    rcases List.mem_cons.mp hm with rfl | hm
    · rfl
    · exact h.held_eq message hm

/-- The run of the collector on messages that come after those it has received. -/
theorem isInOrder_foldl_receive (h : c.IsInOrder result received) (hd : c.IsDrained)
    (later : List Nat) (distinct : (later.reverse ++ received).Nodup) :
    let c' := (later.map fun pos => (pos, result pos)).foldl receive c
    c'.IsInOrder result (later.reverse ++ received) ∧ c'.IsDrained := by
  induction later generalizing c received with
  | nil => exact ⟨h, hd⟩
  | cons pos rest ih =>
    rw [List.reverse_cons, List.append_assoc] at distinct ⊢
    have fresh : pos ∉ received := by
      have := (List.nodup_append.mp distinct).2.1
      exact (List.nodup_cons.mp this).1
    obtain ⟨h', hd'⟩ := isInOrder_receive h fresh
    exact ih h' hd' distinct

theorem IsInOrder.congr (h : c.IsInOrder result received) {received' : List Nat}
    (same : ∀ pos, pos ∈ received' ↔ pos ∈ received) : c.IsInOrder result received' :=
  ⟨h.gathered_eq, fun pos => (same pos).trans (h.mem_received_iff pos), h.next_le, h.held_eq⟩

theorem isInOrder_receiveAll (result : Nat → List α) {positions : List Nat}
    (distinct : positions.Nodup) :
    let c := receiveAll (positions.map fun pos => (pos, result pos))
    c.IsInOrder result positions ∧ c.IsDrained := by
  have distinct' : (positions.reverse ++ []).Nodup := by
    rw [List.append_nil]
    exact (List.reverse_perm positions).nodup_iff.mpr distinct
  obtain ⟨h, hd⟩ :=
    isInOrder_foldl_receive (isInOrder_empty result) isDrained_empty positions distinct'
  exact ⟨h.congr (by simp), hd⟩

/-! ## The end of the run -/

theorem next_notMem_received (h : c.IsInOrder result received) (hd : c.IsDrained) :
    c.next ∉ received := by
  rw [h.mem_received_iff]
  exact not_or.mpr ⟨Nat.lt_irrefl _, hd⟩

theorem next_le_of_notMem (h : c.IsInOrder result received) {pos : Nat} (missing : pos ∉ received) :
    c.next ≤ pos :=
  Nat.le_of_not_lt fun hlt => missing ((h.mem_received_iff pos).mpr (.inl hlt))

theorem next_eq_of_all_received (h : c.IsInOrder result received) (hd : c.IsDrained) {total : Nat}
    (below : ∀ pos ∈ received, pos < total) (all : ∀ pos < total, pos ∈ received) :
    c.next = total := by
  apply Nat.le_antisymm
  · exact next_le_of_notMem h fun hin => Nat.lt_irrefl _ (below _ hin)
  · exact Nat.le_of_not_lt fun hlt => next_notMem_received h hd (all _ hlt)

theorem buffer_eq_nil (h : c.IsInOrder result received)
    (below : ∀ pos ∈ received, pos < c.next) : c.buffer = [] := by
  rw [List.eq_nil_iff_forall_not_mem]
  intro message hm
  have hin : message.1 ∈ received :=
    (h.mem_received_iff _).mpr (.inr (List.mem_map_of_mem hm))
  exact Nat.not_lt_of_le (h.next_le message hm) (below _ hin)

theorem finish_of_all_received (h : c.IsInOrder result received) (hd : c.IsDrained) {total : Nat}
    (below : ∀ pos ∈ received, pos < total) (all : ∀ pos < total, pos ∈ received) :
    c.finish total = .ok ((List.range total).flatMap result) := by
  have hnext := next_eq_of_all_received h hd below all
  rw [finish, if_pos hnext, h.gathered_eq, hnext]

/-- Results that arrive once each in any order are handed on completely and in order. -/
theorem finish_receiveAll_of_perm (result : Nat → List α) {total : Nat} {positions : List Nat}
    (arrival : positions.Perm (List.range total)) :
    (receiveAll (positions.map fun pos => (pos, result pos))).finish total =
      .ok ((List.range total).flatMap result) := by
  obtain ⟨h, hd⟩ := isInOrder_receiveAll result (arrival.nodup_iff.mpr List.nodup_range)
  have hmem : ∀ pos, pos ∈ positions ↔ pos < total := fun pos => by
    rw [arrival.mem_iff, List.mem_range]
  exact finish_of_all_received h hd (fun pos => (hmem pos).mp) (fun pos => (hmem pos).mpr)

/-- At any time the results before the first gap are handed on in order and the others are held
back. When the messages end, either nothing is missing and the whole sequence is returned, or the
first gap is reported and nothing is returned. -/
theorem receiveAll_delivers_in_order (total : Nat) (result : Nat → List α) (positions : List Nat)
    (distinct : positions.Nodup) (below : ∀ pos ∈ positions, pos < total) :
    (∀ received, received <+: positions →
      let c := receiveAll (received.map fun pos => (pos, result pos))
      c.gathered = (List.range c.next).flatMap result ∧
      (∀ pos, pos ∈ received ↔ pos < c.next ∨ pos ∈ c.buffer.map Prod.fst) ∧
      c.next ∉ c.buffer.map Prod.fst) ∧
    let c := receiveAll (positions.map fun pos => (pos, result pos))
    ((∀ pos < total, pos ∈ positions) →
      c.finish total = .ok ((List.range total).flatMap result) ∧ c.buffer = []) ∧
    (∀ pos < total, pos ∉ positions →
      (c.finish total).mapError (Survey.Problem.finishedEarly · total) =
        .error (.finishedEarly c.next total) ∧
      c.next ∉ positions ∧ c.next ≤ pos) := by
  refine ⟨fun received hpre => ?_, ?_, ?_⟩
  · obtain ⟨h, hd⟩ := isInOrder_receiveAll result (hpre.sublist.nodup distinct)
    exact ⟨h.gathered_eq, h.mem_received_iff, hd⟩
  · intro all
    obtain ⟨h, hd⟩ := isInOrder_receiveAll result distinct
    have hnext := next_eq_of_all_received h hd below all
    exact ⟨finish_of_all_received h hd below all, buffer_eq_nil h (hnext ▸ below)⟩
  · intro pos hlt missing
    obtain ⟨h, hd⟩ := isInOrder_receiveAll result distinct
    have hle := next_le_of_notMem h missing
    refine ⟨?_, next_notMem_received h hd, hle⟩
    rw [finish, if_neg (Nat.ne_of_lt (Nat.lt_of_le_of_lt hle hlt))]
    rfl

/-- Three results of which the first to arrive is the last in order: they are put in order, and as
long as the middle one is missing nothing is returned. -/
theorem receiveAll_last_result_first :
    (([2, 0, 1].Nodup ∧ ∀ pos ∈ [2, 0, 1], pos < 3) ∧
      (receiveAll ([2, 0, 1].map fun pos => (pos, [10 * pos]))).finish 3 = .ok [0, 10, 20]) ∧
    (([2, 0].Nodup ∧ ∀ pos ∈ [2, 0], pos < 3) ∧
      ((receiveAll ([2, 0].map fun pos => (pos, [10 * pos]))).finish 3).mapError
        (Survey.Problem.finishedEarly · 3) = .error (.finishedEarly 1 3)) := by
  have hall : [2, 0, 1].Nodup ∧ ∀ pos ∈ [2, 0, 1], pos < 3 := by decide
  have hgap : [2, 0].Nodup ∧ ∀ pos ∈ [2, 0], pos < 3 := by decide
  refine ⟨⟨hall, ?_⟩, hgap, ?_⟩
  · have h := receiveAll_delivers_in_order 3 (fun pos => [10 * pos]) [2, 0, 1] hall.1 hall.2
    exact (h.2.1 (by decide)).1
  · have h := receiveAll_delivers_in_order 3 (fun pos => [10 * pos]) [2, 0] hgap.1 hgap.2
    obtain ⟨herror, hnot, hle⟩ := h.2.2 1 (by decide) (by decide)
    have hnext : ∀ n ≤ 1, n ∉ [2, 0] → n = 1 := by decide
    rw [herror, hnext _ hle hnot]

end TextHygiene.Collector
