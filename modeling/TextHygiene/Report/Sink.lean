import TextHygiene.Report
import TextHygiene.Survey

/-! Writing reports into a sink. A sink with room for so many bytes takes what fits and then
refuses; the first refusal ends the report. -/

namespace TextHygiene

/-- What was written so far, the last piece first, and how many bytes still fit if there is a
bound. The error with which the sink refuses is none that would make the write be tried again. -/
structure Sink where
  room : Option Nat := none
  error : IoError := .sinkFull
  error_ne_interrupted : error.kind ≠ .interrupted := by decide
  chunks : List Bytes := []
deriving DecidableEq

namespace Sink

/-- The bytes that the sink has taken. -/
def written (s : Sink) : Bytes := s.chunks.reverse.flatten

/-- A refused write raises the error of the sink, and leaves the sink full. -/
def write (s : Sink) (bs : Bytes) : Except (IoError × Sink) Sink :=
  match s.room with
  | none => .ok { s with chunks := bs :: s.chunks }
  | some n =>
    if bs.length ≤ n then .ok { s with room := some (n - bs.length), chunks := bs :: s.chunks }
    else .error (s.error, { s with room := some 0, chunks := bs.take n :: s.chunks })

theorem written_write_ok {s s' : Sink} {bs : Bytes} (h : s.write bs = .ok s') :
    s'.written = s.written ++ bs := by
  unfold write at h
  split at h
  · cases h
    simp [written]
  · split at h
    · cases h
      simp [written]
    · cases h

def writeAll : Sink → List Bytes → Except (IoError × Sink) Sink
  | s, [] => .ok s
  | s, bs :: rest =>
    match s.write bs with
    | .error refused => .error refused
    | .ok s' => s'.writeAll rest

/-- Writes a report piece by piece. -/
def report (s : Sink) (format : Format) (fs : List Finding) : Except (IoError × Sink) Sink :=
  s.writeAll ((Report.pieces format fs).map Utf8.encode)

end Sink

/-- Why a survey was not reported. -/
inductive ReportError
  | survey (p : Survey.Problem)
  | sink (e : IoError)
deriving DecidableEq

/-- The messages of an error, outermost first. -/
def ReportError.chain : ReportError → List String
  | survey p => [p.message]
  | sink e => ["write report", e.text]

/-- Finds the files below a path, checks them and writes the report. The sink is as the run leaves
it, whatever the outcome. -/
def FileSystem.surveyInto (fs : FileSystem) (host : Survey.Host) (o : Options) (input : Path)
    (s : Sink) : Except ReportError Tally × Sink :=
  match fs.survey host o (fs.discover o.extensions input) with
  | .error p => (.error (.survey p), s)
  | .ok survey =>
    match s.report o.format survey.findings with
    | .error (e, full) => (.error (.sink e), full)
    | .ok s' => (.ok survey.tally, s')

end TextHygiene
