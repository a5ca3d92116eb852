import TextHygiene.Scan

/-! Detectors whose counters are 64-bit words. Every counter is held in a word after each byte, so
it wraps around where the word ends. -/

namespace TextHygiene.Detector

/-- What a 64-bit word keeps of a number. -/
def word (n : Nat) : Nat := (UInt64.ofNat n).toNat

/-- To count on and keep a word is to add words. -/
theorem word_add_one (n : Nat) : word (n + 1) = (UInt64.ofNat n + 1).toNat := by
  rw [word, UInt64.ofNat_add]
  rfl

def inWords : Detector → Detector
  | lineEndings line => lineEndings (word line)
  | tabs line => tabs (word line)
  | indentation unit line spaces leading => indentation unit (word line) (word spaces) leading
  | trailingWhitespace line spaces => trailingWhitespace (word line) (word spaces)
  | finalNewline run => finalNewline (word run)
  | plainAscii line => plainAscii (word line)

/-- The counters of a detector. -/
def counters : Detector → List Nat
  | lineEndings line | tabs line | plainAscii line => [line]
  | indentation _ line spaces _ | trailingWhitespace line spaces => [line, spaces]
  | finalNewline run => [run]

/-- The run of a detector with counters in words. -/
def runInWords : Detector → Bytes → Except Fault Detector
  | d, [] => .ok d
  | d, b :: rest =>
    match d.feed b with
    | .error f => .error f
    | .ok d' => d'.inWords.runInWords rest

/-- What a detector with counters in words says of the rest of a stream. -/
def judgeInWords (d : Detector) (s : Stream) : Verdict :=
  match d.runInWords s.bytes with
  | .error f => .failed (.fault f)
  | .ok d' => d'.judge { s with bytes := [] }

end TextHygiene.Detector
