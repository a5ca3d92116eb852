import TextHygiene.Scan

/-! Scanning a byte stream once for many rules. Each rule has a lane of its own; a lane that has
its verdict is fed no more, and the pass ends early when no lane is pending. -/

namespace TextHygiene

structure Lane where
  rule : Rule
  detector : Detector
  verdict : Option Verdict := none
deriving DecidableEq

namespace Lane

def isOpen (l : Lane) : Bool := l.verdict.isNone

def feed (b : UInt8) (l : Lane) : Lane :=
  match l.verdict with
  | some _ => l
  | none =>
    match l.detector.feed b with
    | .ok d => { l with detector := d }
    | .error f => { l with verdict := some (.failed (.fault f)) }

/-- Gives an open lane its verdict. -/
def settle (v : Lane → Verdict) (l : Lane) : Lane :=
  match l.verdict with
  | some _ => l
  | none => { l with verdict := some (v l) }

theorem feed_of_verdict {l : Lane} {v : Verdict} (h : l.verdict = some v) (b : UInt8) :
    l.feed b = l := by
  simp [feed, h]

theorem settle_of_verdict {l : Lane} {v : Verdict} (h : l.verdict = some v) (f : Lane → Verdict) :
    l.settle f = l := by
  simp [settle, h]

theorem isOpen_settle (f : Lane → Verdict) (l : Lane) : (l.settle f).isOpen = false := by
  cases h : l.verdict <;> simp [settle, isOpen, h]

end Lane

/-- The lanes of a pass and how many of them are pending. -/
structure Pass where
  lanes : List Lane
  pending : Nat
deriving DecidableEq

namespace Pass

def start (t : TabSize) (rules : List Rule) : Pass :=
  ⟨rules.map fun r => { rule := r, detector := .start t r }, rules.length⟩

/-- Feeds the lanes in order; each lane that retires is taken off the count. -/
def feedLanes (b : UInt8) : List Lane → Nat → Pass
  | [], pending => ⟨[], pending⟩
  | l :: rest, pending =>
    let l' := l.feed b
    let next := feedLanes b rest (if l.isOpen && !l'.isOpen then pending - 1 else pending)
    { next with lanes := l' :: next.lanes }

def feed (b : UInt8) (p : Pass) : Pass := feedLanes b p.lanes p.pending

/-- Reads the stream as long as a lane is pending. A read error settles what is open. -/
def read (error? : Option IoError) : Bytes → Pass → Pass
  | bytes, p =>
    if p.pending = 0 then p
    else match bytes with
      | b :: rest => read error? rest (p.feed b)
      | [] =>
        match error? with
        | some e => ⟨p.lanes.map (·.settle fun _ => .failed (.unreadable e)), 0⟩
        | none => p

/-- Settles what is open at the end of the stream. -/
def close (p : Pass) : Pass :=
  if p.pending = 0 then p
  else { p with lanes := p.lanes.map (·.settle fun l => .ofFault? l.detector.finish) }

def verdicts (p : Pass) : List (Rule × Verdict) :=
  p.lanes.map fun l => (l.rule, l.verdict.getD .passed)

end Pass

/-- The verdicts of a list of rules on a stream, found in one pass, in the order of the list. -/
def judgeShared (t : TabSize) (s : Stream) (rules : List Rule) : List (Rule × Verdict) :=
  ((Pass.start t rules).read s.error? s.bytes).close.verdicts

end TextHygiene
