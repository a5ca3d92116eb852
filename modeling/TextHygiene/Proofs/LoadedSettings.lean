import TextHygiene.Proofs.NormalSettings
import TextHygiene.Proofs.Opening

/-! What keeps the settings at a path from being loaded: the file is not there or cannot be read, or
its bytes are no text, or the text no document, or the document gives a tab size of 0 or the name of
no rule. -/

namespace TextHygiene.FileSystem

variable {fs : FileSystem} {p : Path}

/-- What keeps the settings at a path from being loaded. -/
inductive LoadFails (fs : FileSystem) (p : Path) : SettingsError → Prop
  | missing {e : IoError} (nowhere : fs.reached? p = .error e) : LoadFails fs p (.unreadable p e)
  | noFile {n : Node} {d : DiskEntry} (entry : fs.reached? p = .ok (n, d))
    (other : ∀ content, n ≠ .file content) : LoadFails fs p (.unreadable p .isADirectory)
  | refused {content : Bytes} {d : DiskEntry} {e : DiskError}
    (entry : fs.reached? p = .ok (.file content, d)) (refusal : d.readRefusal = some e) :
    LoadFails fs p (.unreadable p e.toIoError)
  | broken {content : Bytes} {d : DiskEntry} {n : Nat} {e : DiskError}
    (entry : fs.reached? p = .ok (.file content, d)) (opens : d.readRefusal = none)
    (fault : d.fault = some (n, e)) : LoadFails fs p (.unreadable p e.toIoError)
  | notUtf8 {content : Bytes} (file : fs.Holds p content)
    (illFormed : Utf8.decode? content = none) : LoadFails fs p (.unreadable p .notUtf8)
  | malformed {content : Bytes} {text : List Char} (file : fs.Holds p content)
    (wellFormed : Utf8.decode? content = some text)
    (noDocument : Settings.Document.parse? text = none) : LoadFails fs p (.malformed p text)
  | zeroTabSize {content : Bytes} {text : List Char} {d : Settings.Document}
    (file : fs.Holds p content) (wellFormed : Utf8.decode? content = some text)
    (document : Settings.Document.parse? text = some d) (zero : d.tabSize = some 0) :
    LoadFails fs p .zeroTabSize
  | unknownRule {content : Bytes} {text : List Char} {d : Settings.Document} {n : String}
    (file : fs.Holds p content) (wellFormed : Utf8.decode? content = some text)
    (document : Settings.Document.parse? text = some d) (nonzero : d.tabSize ≠ some 0)
    (unknown : d.FirstUnknown n) : LoadFails fs p (.unknownRule n)

theorem loadSettings_of_openStream_eq_error {e : IoError} (h : fs.openStream p = .error e) :
    fs.loadSettings p = .error (.unreadable p e) := by
  simp only [loadSettings, readText, h]

theorem loadSettings_of_error? {s : Stream} {e : IoError} (h : fs.openStream p = .ok s)
    (he : s.error? = some e) : fs.loadSettings p = .error (.unreadable p e) := by
  simp only [loadSettings, readText, h, he]

theorem loadSettings_of_decode?_eq_none {content : Bytes} (h : fs.Holds p content)
    (hnone : Utf8.decode? content = none) :
    fs.loadSettings p = .error (.unreadable p .notUtf8) := by
  simp only [loadSettings, readText, h.openStream_eq, Stream.error?, Option.filter_none, hnone]

theorem loadSettings_of_decode?_eq_some {content : Bytes} {text : List Char}
    (h : fs.Holds p content) (htext : Utf8.decode? content = some text) :
    fs.loadSettings p = Settings.parse p text := by
  simp only [loadSettings, readText, h.openStream_eq, Stream.error?, Option.filter_none, htext]

theorem LoadFails.loadSettings_eq {e : SettingsError} (h : LoadFails fs p e) :
    fs.loadSettings p = .error e := by
  cases h with
  | missing nowhere =>
    exact loadSettings_of_openStream_eq_error (Opening.missing nowhere).openStream_eq
  | noFile entry other =>
    exact loadSettings_of_error? (Opening.noFile entry other).openStream_eq rfl
  | refused entry refusal =>
    exact loadSettings_of_openStream_eq_error (Opening.refused entry refusal).openStream_eq
  | broken entry opens fault =>
    exact loadSettings_of_error? (Opening.broken entry opens fault).openStream_eq
      (DiskError.error?_stream _ _)
  | notUtf8 file illFormed => exact loadSettings_of_decode?_eq_none file illFormed
  | malformed file wellFormed noDocument =>
    rw [loadSettings_of_decode?_eq_some file wellFormed, Settings.parse]
    exact Settings.ofText_eq_malformed_iff.mpr noDocument
  | zeroTabSize file wellFormed document zero =>
    rw [loadSettings_of_decode?_eq_some file wellFormed, Settings.parse,
      Settings.ofText_of_eq_some document]
    exact Settings.ofDocument_eq_error_iff.mpr (.inl ⟨zero, rfl⟩)
  | unknownRule file wellFormed document nonzero unknown =>
    rw [loadSettings_of_decode?_eq_some file wellFormed, Settings.parse,
      Settings.ofText_of_eq_some document]
    exact Settings.ofDocument_eq_error_iff.mpr (.inr ⟨nonzero, _, unknown, rfl⟩)

/-- What is at a path loads, or fails in one of these ways. -/
theorem loads_or_loadFails (fs : FileSystem) (p : Path) :
    (∃ s, fs.loadSettings p = .ok s) ∨ ∃ e, LoadFails fs p e := by
  obtain ⟨r, hopening⟩ : ∃ r, Opening fs p r := ⟨_, fs.opening p⟩
  cases hopening with
  | missing nowhere => exact .inr ⟨_, .missing nowhere⟩
  | noFile entry other => exact .inr ⟨_, .noFile entry other⟩
  | refused entry refusal => exact .inr ⟨_, .refused entry refusal⟩
  | broken entry opens fault => exact .inr ⟨_, .broken entry opens fault⟩
  | @whole content d entry opens sound =>
    have file : fs.Holds p content := ⟨d, entry, opens, sound⟩
    cases htext : Utf8.decode? content with
    | none => exact .inr ⟨_, .notUtf8 file htext⟩
    | some text =>
      cases hdocument : Settings.Document.parse? text with
      | none => exact .inr ⟨_, .malformed file htext hdocument⟩
      | some d =>
        have hload := loadSettings_of_decode?_eq_some file htext
        rw [Settings.parse, Settings.ofText_of_eq_some hdocument] at hload
        cases hsettings : Settings.ofDocument d with
        | ok s => exact .inl ⟨s, hload.trans hsettings⟩
        | error e =>
          obtain ⟨zero, -⟩ | ⟨nonzero, n, unknown, -⟩ :=
            Settings.ofDocument_eq_error_iff.mp hsettings
          · exact .inr ⟨_, .zeroTabSize file htext hdocument zero⟩
          · exact .inr ⟨_, .unknownRule file htext hdocument nonzero unknown⟩

theorem loadFails_iff {e : SettingsError} : LoadFails fs p e ↔ fs.loadSettings p = .error e := by
  refine ⟨LoadFails.loadSettings_eq, fun h => ?_⟩
  obtain ⟨s, hs⟩ | ⟨e', hfails⟩ := loads_or_loadFails fs p
  · cases hs.symm.trans h
  · obtain rfl := Except.error.inj (hfails.loadSettings_eq.symm.trans h)
    exact hfails

end TextHygiene.FileSystem
