import TextHygiene.Survey.Collector

/-! Workers, a bounded channel and a collector, step by step. A worker takes a position, and sends
its result when the channel has room; the channel is closed when all work is done, and the
collector stops at an empty closed channel. -/

namespace TextHygiene

variable {α : Type}

/-- How many messages the channel holds. -/
def channelCapacity : Nat := 256

/-- The state of a parallel check. -/
structure Exchange (α : Type) where
  /-- Positions that no worker has taken. -/
  waiting : List Nat
  /-- Positions whose results workers compute or hold. -/
  busy : List Nat := []
  channel : List (Nat × List α) := []
  isClosed : Bool := false
  /-- Positions received, the last one first. -/
  received : List Nat := []
  collector : Collector α := {}
  /-- The collector has left its loop. -/
  isDone : Bool := false

namespace Exchange

def start (total : Nat) : Exchange α := { waiting := List.range total }

/-- One step of a worker, of the channel's owner or of the collector. -/
inductive Step (workers : Nat) (result : Nat → List α) : Exchange α → Exchange α → Prop
  | take {e : Exchange α} {pos : Nat} (waits : pos ∈ e.waiting) (idle : e.busy.length < workers) :
    Step workers result e { e with waiting := e.waiting.erase pos, busy := pos :: e.busy }
  | send {e : Exchange α} {pos : Nat} (works : pos ∈ e.busy)
      (room : e.channel.length < channelCapacity) :
    Step workers result e
      { e with busy := e.busy.erase pos, channel := e.channel ++ [(pos, result pos)] }
  | close {e : Exchange α} (taken : e.waiting = []) (sent : e.busy = [])
      (unclosed : e.isClosed = false) :
    Step workers result e { e with isClosed := true }
  | receive {e : Exchange α} {message : Nat × List α} {rest : List (Nat × List α)}
      (active : e.isDone = false) (first : e.channel = message :: rest) :
    Step workers result e
      { e with
        channel := rest
        received := message.1 :: e.received
        collector := e.collector.receive message }
  | leave {e : Exchange α} (active : e.isDone = false) (empty : e.channel = [])
      (closed : e.isClosed = true) :
    Step workers result e { e with isDone := true }

/-- The states that a check of so many files can come to. -/
inductive Reachable (workers total : Nat) (result : Nat → List α) : Exchange α → Prop
  | start : Reachable workers total result (Exchange.start total)
  | step {e e' : Exchange α} :
    Reachable workers total result e → Step workers result e e' → Reachable workers total result e'

end Exchange

end TextHygiene
