import TextHygiene.Fault

/-! One small machine per rule. A detector reads a file byte by byte, counts lines from 1, and
stops at the first fault; what is still open at the end of the file is settled by `finish`. -/

namespace TextHygiene

/-- The width of one indentation level, at least one space. -/
structure TabSize where
  width : Nat
  width_pos : 0 < width := by decide
deriving DecidableEq

def TabSize.ofNat? (n : Nat) : Option TabSize :=
  if h : 0 < n then some ⟨n, h⟩ else none

inductive Detector
  | lineEndings (line : Nat)
  | tabs (line : Nat)
  /-- `leading` holds as long as only spaces were read in the line. -/
  | indentation (unit : TabSize) (line spaces : Nat) (leading : Bool)
  /-- `spaces` is the run of spaces just read. -/
  | trailingWhitespace (line spaces : Nat)
  /-- `run` is the run of line feeds just read. -/
  | finalNewline (run : Nat)
  | plainAscii (line : Nat)
deriving DecidableEq

namespace Detector

def start (t : TabSize) : Rule → Detector
  | .lineEndings => lineEndings 1
  | .tabs => tabs 1
  | .indentation => indentation t 1 0 true
  | .trailingWhitespace => trailingWhitespace 1 0
  | .finalNewline => finalNewline 0
  | .plainAscii => plainAscii 1

def rule : Detector → Rule
  | lineEndings _ => .lineEndings
  | tabs _ => .tabs
  | indentation .. => .indentation
  | trailingWhitespace .. => .trailingWhitespace
  | finalNewline _ => .finalNewline
  | plainAscii _ => .plainAscii

/-- Reads one byte. The indentation of a line is judged at its first byte that is no space, so a
line of spaces alone is never judged. -/
def feed (b : UInt8) : Detector → Except Fault Detector
  | lineEndings line =>
    if b = Byte.carriageReturn then .error (.windowsLineEnding line)
    else if b = Byte.lineFeed then .ok (lineEndings (line + 1))
    else .ok (lineEndings line)
  | tabs line =>
    if b = Byte.tab then .error (.tabCharacter line)
    else if b = Byte.lineFeed then .ok (tabs (line + 1))
    else .ok (tabs line)
  | indentation unit line spaces leading =>
    if b = Byte.lineFeed then .ok (indentation unit (line + 1) 0 true)
    else if !leading then .ok (indentation unit line spaces false)
    else if b = Byte.space then .ok (indentation unit line (spaces + 1) true)
    else if spaces % unit.width ≠ 0 then .error (.badIndentation unit.width line)
    else .ok (indentation unit line spaces false)
  | trailingWhitespace line spaces =>
    if b = Byte.lineFeed then
      if spaces ≠ 0 then .error (.trailingWhitespace line) else .ok (trailingWhitespace (line + 1) 0)
    else if b = Byte.space then .ok (trailingWhitespace line (spaces + 1))
    else .ok (trailingWhitespace line 0)
  | finalNewline run =>
    if b = Byte.lineFeed then .ok (finalNewline (run + 1)) else .ok (finalNewline 0)
  | plainAscii line =>
    if !Byte.isAscii b then .error (.nonAscii line)
    else if b = Byte.lineFeed then .ok (plainAscii (line + 1))
    else .ok (plainAscii line)

/-- What the end of the file decides. -/
def finish : Detector → Option Fault
  | finalNewline run => if run ≠ 1 then some (.finalNewlineCount run) else none
  | _ => none

def run : Detector → Bytes → Except Fault Detector
  | d, [] => .ok d
  | d, b :: rest =>
    match d.feed b with
    | .error f => .error f
    | .ok d' => d'.run rest

theorem run_append (d : Detector) (a b : Bytes) :
    d.run (a ++ b) = match d.run a with
      | .error f => .error f
      | .ok d' => d'.run b := by
  induction a generalizing d with
  | nil => rfl
  | cons x rest ih =>
    simp only [List.cons_append, run]
    cases d.feed x with
    | error f => rfl
    | ok d' => exact ih d'

theorem rule_start (t : TabSize) (r : Rule) : (start t r).rule = r := by cases r <;> rfl

theorem rule_feed {d d' : Detector} {b : UInt8} (h : d.feed b = .ok d') : d'.rule = d.rule := by
  cases d <;> simp only [feed] at h <;> repeat' split at h
  all_goals cases h
  all_goals rfl

/-- What holds before the first byte, and what every byte keeps, holds of all that is read without a
fault. -/
theorem run_induction {motive : Bytes → Detector → Prop} {d d' : Detector} {bs : Bytes}
    (nil : motive [] d)
    (concat : ∀ before b d₁ d₂, motive before d₁ → d₁.feed b = .ok d₂ → motive (before ++ [b]) d₂)
    (h : d.run bs = .ok d') : motive bs d' := by
  -- The bytes read so far vary, since each step adds its byte at their end.
  have go : ∀ (bs before : Bytes) (d : Detector), motive before d → d.run bs = .ok d' →
      motive (before ++ bs) d' := by
    intro bs
    induction bs with
    | nil =>
      intro before d hd h
      cases h
      rwa [List.append_nil]
    | cons b rest ih =>
      intro before d hd h
      rw [run] at h
      cases hfeed : d.feed b with
      | error f => simp [hfeed] at h
      | ok next =>
        rw [hfeed] at h
        rw [List.append_cons]
        exact ih (before ++ [b]) next (concat before b d next hd hfeed) h
  exact go bs [] d nil h

theorem rule_run {d d' : Detector} {bs : Bytes} (h : d.run bs = .ok d') : d'.rule = d.rule :=
  run_induction (motive := fun _ e => e.rule = d.rule) rfl
    (fun _ _ _ _ ih hfeed => (rule_feed hfeed).trans ih) h

end Detector

end TextHygiene
