import TextHygiene.Decimal
import TextHygiene.IoError
import TextHygiene.Path
import TextHygiene.Rule

/-! The first fault that a rule finds in a file, and the failure of a check: a fault or a read
error, with the path it concerns. The wording of every failure is in `Failure.message`. -/

namespace TextHygiene

inductive Fault
  | windowsLineEnding (line : Nat)
  | tabCharacter (line : Nat)
  | badIndentation (unit line : Nat)
  | trailingWhitespace (line : Nat)
  | finalNewlineCount (count : Nat)
  | nonAscii (line : Nat)
deriving DecidableEq

namespace Fault

/-- The rule that a fault breaks. -/
def rule : Fault → Rule
  | windowsLineEnding _ => .lineEndings
  | tabCharacter _ => .tabs
  | badIndentation _ _ => .indentation
  | trailingWhitespace _ => .trailingWhitespace
  | finalNewlineCount _ => .finalNewline
  | nonAscii _ => .plainAscii

/-- The 1-based line of a fault; line feeds at the end of a file have none. -/
def line? : Fault → Option Nat
  | windowsLineEnding n | tabCharacter n | badIndentation _ n | trailingWhitespace n
  | nonAscii n => some n
  | finalNewlineCount _ => none

def count? : Fault → Option Nat
  | finalNewlineCount n => some n
  | _ => none

def describe : Fault → String
  | windowsLineEnding n => "has Windows style line ending in line " ++ Decimal.text n
  | tabCharacter n => "has a tab character in line " ++ Decimal.text n
  | badIndentation u n =>
    "is not using " ++ Decimal.text u ++ " spaces for indentation in line " ++ Decimal.text n
  | trailingWhitespace n => "has trailing whitespace in line " ++ Decimal.text n
  | finalNewlineCount n =>
    "must end with exactly one new line character (found " ++ Decimal.text n ++ ")"
  | nonAscii n => "has a non-ASCII character in line " ++ Decimal.text n

end Fault

inductive Cause
  | fault (f : Fault)
  | unreadable (e : IoError)
deriving DecidableEq

namespace Cause

def fault? : Cause → Option Fault
  | fault f => some f
  | unreadable _ => none

def describe : Cause → String
  | fault f => f.describe
  | unreadable e => "could not be read: " ++ e.text

end Cause

structure Failure where
  path : Path
  cause : Cause
deriving DecidableEq

def Failure.message (f : Failure) : String :=
  "File '" ++ f.path.display ++ "' " ++ f.cause.describe

end TextHygiene
