/-! Putting results back in order. Results arrive with their positions in any order; the collector
holds back what comes too early and hands on everything up to the first gap. -/

namespace TextHygiene

variable {α : Type}

structure Collector (α : Type) where
  next : Nat := 0
  buffer : List (Nat × List α) := []
  gathered : List α := []

namespace Collector

def takeEntry (pos : Nat) (buffer : List (Nat × List α)) : List (Nat × List α) :=
  buffer.filter (·.1 ≠ pos)

theorem length_takeEntry_lt {pos : Nat} {buffer : List (Nat × List α)} {found : List α}
    (h : buffer.lookup pos = some found) : (takeEntry pos buffer).length < buffer.length := by
  obtain ⟨l, r, rfl, -⟩ := List.lookup_eq_some_iff.mp h
  exact List.length_filter_lt_length_iff_exists.mpr ⟨(pos, found), by simp, by simp⟩

/-- Hands on what the buffer holds from position `next` on, up to the first gap. -/
def drain (c : Collector α) : Collector α :=
  match _ : c.buffer.lookup c.next with
  | none => c
  | some found =>
    drain ⟨c.next + 1, takeEntry c.next c.buffer, c.gathered ++ found⟩
termination_by c.buffer.length
decreasing_by exact length_takeEntry_lt ‹_›

/-- A result replaces an earlier one of the same position that is still held back. -/
def receive (c : Collector α) (message : Nat × List α) : Collector α :=
  drain { c with buffer := message :: takeEntry message.1 c.buffer }

def receiveAll (messages : List (Nat × List α)) : Collector α := messages.foldl receive {}

/-- What was gathered when the last message is in: everything, or the number of results that
came before the first gap. -/
def finish (total : Nat) (c : Collector α) : Except Nat (List α) :=
  if c.next = total then .ok c.gathered else .error c.next

end Collector

end TextHygiene
