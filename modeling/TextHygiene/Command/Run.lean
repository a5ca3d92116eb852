import TextHygiene.Command.Arguments
import TextHygiene.Report.Sink
import TextHygiene.Settings.Reader
import TextHygiene.Tree.Edit

/-! A run of the command line on a file system. The steps before the check may fail, each with its
own chain of messages, and the first that fails ends the run. -/

namespace TextHygiene.Command

/-- What a run leaves behind. -/
structure Outcome where
  code : Nat
  stdout : Bytes := []
  errors : List String := []
  files : FileSystem

/-- The texts that the libraries of the program supply: what keeps a text from being a settings
document, as the reader of TOML says it, and the help on a topic. -/
structure Texts where
  complaint : List Char → String
  help : Topic → String

/-- The step before a check that failed. -/
inductive StepError
  | settings (e : SettingsError)
  | zeroTabSize
  | unknownRule (e : SettingsError)
  | threadsNumeral (value : String) (e : Decimal.NumeralError)
  | zeroThreads
  | output (e : IoError)
deriving DecidableEq

/-- The messages of an error, with those of its causes below it. -/
def settingsChain (texts : Texts) (e : SettingsError) : List String :=
  match e with
  | .unreadable _ cause => [e.message, cause.text]
  | .malformed _ text => [e.message, texts.complaint text]
  | _ => [e.message]

def outputChain (e : IoError) : List String := ["create output file", e.text]

def reportChain (e : ReportError) : List String := "check failed" :: e.chain

/-- The messages of a step's error, outermost first. -/
def StepError.chain (texts : Texts) : StepError → List String
  | settings e => "load config" :: settingsChain texts e
  | zeroTabSize => ["--tab-size must be at least 1"]
  | unknownRule e => "invalid --rule" :: settingsChain texts e
  | threadsNumeral v e => ["invalid --threads value '" ++ v ++ "'", e.message]
  | zeroThreads => ["--threads must be at least 1 or \"auto\""]
  | output e => outputChain e

/-- The settings that are read when no others are named. -/
def defaultSettingsPath : Path := Path.ofString "./fmtcheck.toml"

/-- Settings that are named must load; the default ones only where they exist. -/
def settings (fs : FileSystem) : Option Path → Except SettingsError Settings
  | some p => fs.loadSettings p
  | none =>
    if fs.isFile defaultSettingsPath then fs.loadSettings defaultSettingsPath else .ok .default

def tabSize (s : Settings) : Option Nat → Except StepError Nat
  | none => .ok s.tabSize.width
  | some n => if n = 0 then .error .zeroTabSize else .ok n

def rules (s : Settings) : List String → Except StepError (List Rule)
  | [] => .ok s.rules
  | names => (Rule.ofNames names).mapError .unknownRule

/-- The number of threads; `auto`, in any case, leaves it to the host. -/
def threads (value : String) : Except StepError (Option Nat) :=
  if value.toList.map Char.toLower = "auto".toList then .ok none
  else match Decimal.word value.toList with
    | .error e => .error (.threadsNumeral value e)
    | .ok n => if n = 0 then .error .zeroThreads else .ok (some n)

/-- The options of a check. The steps are taken in this order, and the first error counts. -/
def options (fs : FileSystem) (a : CheckArguments) : Except StepError Options := do
  let s ← (settings fs a.config).mapError .settings
  let t ← tabSize s a.tabSize
  let rs ← rules s a.rules
  let n ← threads (a.threads.getD "auto")
  return {
    tabSize := t
    rules := rs
    extensions := s.extensions
    maxFileSize := a.maxFileSize
    engine := a.engine.getD .perRule
    format := a.format.getD .text
    threads := n }

def input (a : CheckArguments) : Path := a.input.getD (Path.ofString ".")

/-- Failures make the exit code 1. -/
def exitCode (t : Tally) : Nat := if t.failures = 0 then 0 else 1

/-- Checks and reports to the standard output. -/
def checkToStdout (host : Survey.Host) (fs : FileSystem) (o : Options) (input : Path) : Outcome :=
  match fs.surveyInto host o input {} with
  | (.error e, s) =>
    { code := 1, stdout := s.written, errors := reportChain e, files := fs }
  | (.ok t, s) => { code := exitCode t, stdout := s.written, files := fs }

/-- Checks and reports to a file, which is emptied before the check looks at any file. -/
def checkToFile (host : Survey.Host) (fs : FileSystem) (o : Options) (input output : Path) :
    Outcome :=
  match fs.target output with
  | .error e => { code := 1, errors := outputChain e, files := fs }
  | .ok loc =>
    let fs' := fs.putFile loc []
    match fs'.surveyInto host o input {} with
    | (.error e, s) =>
      { code := 1, errors := reportChain e, files := fs'.putFile loc s.written }
    | (.ok t, s) => { code := exitCode t, files := fs'.putFile loc s.written }

/-- A cause below an error, its further lines set in like the first. -/
def causeText (head text : String) : String :=
  let margin := String.ofList (List.replicate head.length ' ')
  head ++ ("\n" ++ margin).intercalate (text.splitOn "\n") ++ "\n"

/-- How an error is shown: its first message, and the causes below it, numbered if there are
several. -/
def errorText : List String → String
  | [] => ""
  | [e] => "Error: " ++ e ++ "\n"
  | [e, cause] => "Error: " ++ e ++ "\n\nCaused by:\n" ++ causeText "    " cause
  | e :: causes =>
    "Error: " ++ e ++ "\n\nCaused by:\n" ++
      String.join (causes.zipIdx.map fun (cause, i) =>
        causeText ("    " ++ Decimal.text i ++ ": ") cause)

def check (texts : Texts) (host : Survey.Host) (fs : FileSystem) (a : CheckArguments) : Outcome :=
  match options fs a with
  | .error e => { code := 1, errors := e.chain texts, files := fs }
  | .ok o =>
    match a.output with
    | none => checkToStdout host fs o (input a)
    | some p => checkToFile host fs o (input a) p

/-- A rule with its title, the names filled up to twenty columns. -/
def ruleLine (r : Rule) : List Char :=
  r.name.toList ++ List.replicate (20 - r.name.length) ' ' ++ ' ' :: (r.title.toList ++ ['\n'])

def versionLine : String := "fmtcheck 0.1.0\n"

/-- The run of a command line. Arguments that make no command give exit code 2. -/
def run (texts : Texts) (host : Survey.Host) (fs : FileSystem) (arguments : List Argument) :
    Outcome :=
  match Invocation.ofArguments arguments with
  | .check a => check texts host fs a
  | .rules => { code := 0, stdout := Utf8.encode (Rule.all.flatMap ruleLine), files := fs }
  | .version => { code := 0, stdout := Utf8.encode versionLine.toList, files := fs }
  | .help topic => { code := 0, stdout := Utf8.encode (texts.help topic).toList, files := fs }
  | .misuse => { code := 2, files := fs }

end TextHygiene.Command
