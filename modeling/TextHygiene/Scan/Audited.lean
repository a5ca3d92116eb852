import TextHygiene.Scan.Shared

/-! The shared pass under audit. It goes the way of the pass, but it stops with a breach where the
pass would take one off a count of zero, give a lane a second verdict, use the detector of a lane
that has its verdict, or report a lane that has none. -/

namespace TextHygiene

/-- What a pass must not do. -/
inductive Breach
  /-- One is taken off a count of zero. -/
  | underflow
  /-- A lane that has a verdict is given one. -/
  | secondVerdict
  /-- A detector is used that has been given up. -/
  | retiredDetector
  /-- A lane is reported that has no verdict. -/
  | noVerdict
deriving DecidableEq

/-- A lane that gives its detector up when it gets its verdict. -/
structure AuditedLane where
  rule : Rule
  detector : Option Detector
  verdict : Option Verdict := none
deriving DecidableEq

/-- The lanes of an audited pass and how many of them are pending. -/
structure AuditedPass where
  lanes : List AuditedLane
  pending : Nat
deriving DecidableEq

namespace AuditedLane

/-- The detector, for one byte or for the end of the stream. -/
def use (l : AuditedLane) : Except Breach Detector :=
  match l.detector with
  | some d => .ok d
  | none => .error .retiredDetector

def retire (v : Verdict) (l : AuditedLane) : Except Breach AuditedLane :=
  match l.verdict with
  | some _ => .error .secondVerdict
  | none => .ok { l with detector := none, verdict := some v }

def countDown : Nat → Except Breach Nat
  | 0 => .error .underflow
  | pending + 1 => .ok pending

/-- Feeds the lane, unless it has its verdict, and counts it down if it retires. -/
def feed (b : UInt8) (pending : Nat) (l : AuditedLane) : Except Breach (AuditedLane × Nat) :=
  if l.verdict.isSome then .ok (l, pending)
  else do
    let d ← l.use
    match d.feed b with
    | .ok d' => return ({ l with detector := some d' }, pending)
    | .error f => return (← l.retire (.failed (.fault f)), ← countDown pending)

/-- Gives the lane a verdict, unless it has one. -/
def settle (v : AuditedLane → Except Breach Verdict) (l : AuditedLane) :
    Except Breach AuditedLane :=
  if l.verdict.isSome then .ok l else do l.retire (← v l)

def report (l : AuditedLane) : Except Breach (Rule × Verdict) :=
  match l.verdict with
  | some v => .ok (l.rule, v)
  | none => .error .noVerdict

end AuditedLane

namespace AuditedPass

def start (t : TabSize) (rules : List Rule) : AuditedPass :=
  ⟨rules.map fun r => { rule := r, detector := some (.start t r) }, rules.length⟩

def feedLanes (b : UInt8) : List AuditedLane → Nat → Except Breach AuditedPass
  | [], pending => .ok ⟨[], pending⟩
  | l :: rest, pending => do
    let (l', pending') ← l.feed b pending
    let next ← feedLanes b rest pending'
    return { next with lanes := l' :: next.lanes }

def feed (b : UInt8) (p : AuditedPass) : Except Breach AuditedPass := feedLanes b p.lanes p.pending

def settle (v : AuditedLane → Except Breach Verdict) (pending : Nat) (p : AuditedPass) :
    Except Breach AuditedPass := do
  let lanes ← p.lanes.mapM (·.settle v)
  return ⟨lanes, pending⟩

def read (error? : Option IoError) : Bytes → AuditedPass → Except Breach AuditedPass
  | [], p =>
    if p.pending = 0 then .ok p
    else match error? with
      | some e => p.settle (fun _ => .ok (.failed (.unreadable e))) 0
      | none => .ok p
  | b :: rest, p =>
    if p.pending = 0 then .ok p
    else do read error? rest (← p.feed b)

def close (p : AuditedPass) : Except Breach AuditedPass :=
  if p.pending = 0 then .ok p
  else p.settle (fun l => do return .ofFault? (← l.use).finish) p.pending

def verdicts (p : AuditedPass) : Except Breach (List (Rule × Verdict)) :=
  p.lanes.mapM AuditedLane.report

end AuditedPass

/-- The verdicts of a list of rules on a stream, found in one audited pass. -/
def judgeAudited (t : TabSize) (s : Stream) (rules : List Rule) :
    Except Breach (List (Rule × Verdict)) := do
  let p ← (AuditedPass.start t rules).read s.error? s.bytes
  (← p.close).verdicts

end TextHygiene
