/-! What can go wrong when a path is opened, read or written: a kind, and the text that is shown. -/

namespace TextHygiene

inductive IoKind
  | notFound
  | notADirectory
  | isADirectory
  | nameTooLong
  | tooManyLinks
  | permissionDenied
  | unexpectedEnd
  | interrupted
  | invalidInput
  | invalidData
  | storageFull
  | other
deriving DecidableEq

structure IoError where
  kind : IoKind
  text : String
deriving DecidableEq

namespace IoError

def notFound : IoError := ⟨.notFound, "No such file or directory (os error 2)"⟩
def notADirectory : IoError := ⟨.notADirectory, "Not a directory (os error 20)"⟩
def isADirectory : IoError := ⟨.isADirectory, "Is a directory (os error 21)"⟩
def nameTooLong : IoError := ⟨.nameTooLong, "File name too long (os error 36)"⟩
def tooManyLinks : IoError := ⟨.tooManyLinks, "Too many levels of symbolic links (os error 40)"⟩
def nulInPath : IoError := ⟨.invalidInput, "file name contained an unexpected NUL byte"⟩
def notUtf8 : IoError := ⟨.invalidData, "stream did not contain valid UTF-8"⟩
def sinkFull : IoError := ⟨.storageFull, "sink is full"⟩

end IoError

/-- A text without a line feed. -/
def IsOneLine (s : String) : Prop := '\n' ∉ s.toList

instance (s : String) : Decidable (IsOneLine s) := inferInstanceAs (Decidable (_ ∉ _))

/-- An error that the disk raises on a file that is there. Its text is one line. A call that is
interrupted is made again, so that it is none of these errors. -/
structure DiskError extends IoError where
  oneLine : IsOneLine text := by decide
  lasting : kind ≠ .interrupted := by decide

namespace DiskError

def permissionDenied : DiskError where
  kind := .permissionDenied
  text := "Permission denied (os error 13)"

def failedRead : DiskError where
  kind := .other
  text := "Input/output error (os error 5)"

end DiskError

end TextHygiene
