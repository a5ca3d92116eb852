import TextHygiene.Detector

/-! Scanning a byte stream by one rule. The first fault ends the scan; a read error decides a rule
that has found nothing before it. -/

namespace TextHygiene

/-- The bytes that a reader yields, and the error that it may raise after them. -/
structure Stream where
  bytes : Bytes
  ending : Option IoError := none
deriving DecidableEq

/-- The error that a reader of the stream meets. An interrupted read is taken up again, so it
never shows. -/
def Stream.error? (s : Stream) : Option IoError :=
  s.ending.filter (·.kind ≠ .interrupted)

inductive Verdict
  | passed
  | failed (cause : Cause)
deriving DecidableEq

namespace Verdict

def ofFault? : Option Fault → Verdict
  | none => passed
  | some f => failed (.fault f)

def failure? (p : Path) : Verdict → Option Failure
  | passed => none
  | failed c => some ⟨p, c⟩

theorem failure?_eq_none_iff {v : Verdict} {p : Path} : v.failure? p = none ↔ v = passed := by
  cases v <;> simp [failure?]

end Verdict

/-- What a detector says of the rest of a stream. -/
def Detector.judge (d : Detector) (s : Stream) : Verdict :=
  match d.run s.bytes with
  | .error f => .failed (.fault f)
  | .ok d' =>
    match s.error? with
    | some e => .failed (.unreadable e)
    | none => .ofFault? d'.finish

/-- The verdict of one rule on a stream. -/
def Rule.judge (t : TabSize) (s : Stream) (r : Rule) : Verdict := (Detector.start t r).judge s

end TextHygiene
