import TextHygiene.Detector

/-! Settings of a check: the tab size, the extensions of the files to look for, and the rules. A
settings document may leave each of them out; reading one checks and normalises what it gives. -/

namespace TextHygiene

structure Settings where
  tabSize : TabSize
  extensions : List String
  rules : List Rule
deriving DecidableEq

/-- The fields of a settings document, as written. -/
structure Settings.Document where
  tabSize : Option Nat := none
  extensions : Option (List String) := none
  rules : Option (List String) := none
deriving DecidableEq

inductive SettingsError
  | unreadable (path : Path) (e : IoError)
  /-- A text that is no settings document. -/
  | malformed (path : Path) (text : List Char)
  | zeroTabSize
  | unknownRule (name : String)
deriving DecidableEq

def SettingsError.message : SettingsError → String
  | unreadable p _ => "failed to read config file '" ++ p.display ++ "'"
  | malformed p _ => "failed to parse config file '" ++ p.display ++ "'"
  | zeroTabSize => "tab_size must be at least 1"
  | unknownRule n => "unknown rule '" ++ n ++ "'"

/-- The rules of the given names; the first unknown name is refused. -/
def Rule.ofNames : List String → Except SettingsError (List Rule)
  | [] => .ok []
  | n :: rest =>
    match Rule.ofName? n with
    | none => .error (.unknownRule n)
    | some r => (ofNames rest).map (r :: ·)

namespace Settings

def defaultTabSize : TabSize := { width := 4 }

def defaultExtensions : List String :=
  ["cs", "shader", "cginc", "hlsl", "hlslinc", "glsl", "compute"]

def default : Settings := ⟨defaultTabSize, defaultExtensions, Rule.all⟩

/-- Extensions are kept without leading dots and in lower case. -/
def normalizeExtension (e : String) : String :=
  String.ofList ((e.toList.dropWhile (· = '.')).map Char.toLower)

namespace Document

def tabSize? (d : Document) : Except SettingsError TabSize :=
  match d.tabSize with
  | none => .ok defaultTabSize
  | some n =>
    match TabSize.ofNat? n with
    | some t => .ok t
    | none => .error .zeroTabSize

def rules? (d : Document) : Except SettingsError (List Rule) :=
  match d.rules with
  | none => .ok Rule.all
  | some names => (Rule.ofNames names).map Rule.normalize

end Document

/-- A zero tab size is refused before an unknown rule. -/
def ofDocument (d : Document) : Except SettingsError Settings :=
  match d.tabSize? with
  | .error e => .error e
  | .ok t =>
    match d.rules? with
    | .error e => .error e
    | .ok rules =>
      .ok ⟨t, (d.extensions.map (·.map normalizeExtension)).getD defaultExtensions, rules⟩

/-- The settings of a text that comes from `origin`, for a reader of documents. -/
def ofText (document? : List Char → Option Document) (origin : Path) (text : List Char) :
    Except SettingsError Settings :=
  match document? text with
  | none => .error (.malformed origin text)
  | some d => ofDocument d

/-- The document that writes the settings out in full. -/
def toDocument (s : Settings) : Document :=
  ⟨some s.tabSize.width, some s.extensions, some (s.rules.map Rule.name)⟩

end Settings

end TextHygiene
