import TextHygiene.Options
import TextHygiene.Path

/-! The arguments of the command line. They are read from left to right, and the first thing that
decides, a request for help or a mistake, ends the reading. -/

namespace TextHygiene.Command

/-- An argument is a byte string, as a path is, and need not be a text. -/
abbrev Argument := Bytes

def Argument.ofString (s : String) : Argument := Utf8.encode s.toList

/-- The text of a value, for flags that take no other values. -/
def Argument.text? (value : Argument) : Option String := (Utf8.decode? value).map String.ofList

/-- The flags of the `check` command, each with a value. -/
inductive Flag
  | input
  | output
  | format
  | threads
  | engine
  | config
  | tabSize
  | rule
  | maxFileSize
deriving DecidableEq

namespace Flag

def all : List Flag :=
  [input, output, format, threads, engine, config, tabSize, rule, maxFileSize]

def name : Flag → String
  | input => "input"
  | output => "output"
  | format => "format"
  | threads => "threads"
  | engine => "engine"
  | config => "config"
  | tabSize => "tab-size"
  | rule => "rule"
  | maxFileSize => "max-file-size"

def ofName? (s : Argument) : Option Flag := all.find? (Argument.ofString ·.name = s)

end Flag

/-- What was asked of a check; only `rules` may be given more than once. -/
structure CheckArguments where
  input : Option Path := none
  output : Option Path := none
  format : Option Format := none
  threads : Option String := none
  engine : Option Engine := none
  config : Option Path := none
  tabSize : Option Nat := none
  rules : List String := []
  maxFileSize : Option Nat := none
deriving DecidableEq

/-- What help may be asked on. -/
inductive Topic
  | program
  | check
  | rules
  | help
deriving DecidableEq

inductive Invocation
  | check (arguments : CheckArguments)
  | rules
  | version
  | help (topic : Topic)
  /-- The arguments make no command. -/
  | misuse
deriving DecidableEq

/-- Sets a field that is not set yet. -/
def once {α : Type} (old : Option α) (new : Option α) : Option (Option α) :=
  match old, new with
  | none, some a => some (some a)
  | _, _ => none

def word? (value : Argument) : Option Nat :=
  match (Utf8.decode? value).map Decimal.word with
  | some (.ok n) => some n
  | _ => none

/-- Any bytes make a path, but it must not be empty. -/
def path? (value : Argument) : Option Path := if value.isEmpty then none else some value

namespace CheckArguments

/-- Takes the value of a flag, unless it is none that the flag allows or the flag was given
before. -/
def set? (a : CheckArguments) (f : Flag) (value : Argument) : Option CheckArguments :=
  match f with
  | .input => (once a.input (path? value)).map fun v => { a with input := v }
  | .output => (once a.output (path? value)).map fun v => { a with output := v }
  | .format => (once a.format (value.text?.bind Format.ofName?)).map fun v => { a with format := v }
  | .threads => (once a.threads value.text?).map fun v => { a with threads := v }
  | .engine => (once a.engine (value.text?.bind Engine.ofName?)).map fun v => { a with engine := v }
  | .config => (once a.config (path? value)).map fun v => { a with config := v }
  | .tabSize => (once a.tabSize (word? value)).map fun v => { a with tabSize := v }
  | .rule => value.text?.map fun v => { a with rules := a.rules ++ [v] }
  | .maxFileSize => (once a.maxFileSize (word? value)).map fun v => { a with maxFileSize := v }

end CheckArguments

/-- What a single argument looks like where a flag may stand. A dash alone is a plain word. -/
inductive Shape
  /-- Two dashes alone, after which no flags come. -/
  | divider
  | long (name : Argument) (value : Option Argument)
  | short (letter : UInt8)
  | word (text : Argument)

namespace Shape

def of (arg : Argument) : Shape :=
  match arg with
  | [Byte.dash, Byte.dash] => divider
  | Byte.dash :: Byte.dash :: rest =>
    let name := rest.takeWhile (· ≠ Byte.equalsSign)
    long name ((rest.drop name.length).tail?)
  | Byte.dash :: letter :: _ => short letter
  | text => word text

/-- Whether a flag without a value is meant, by its letter or by its name. -/
def isSwitch (letter : Char) (name : String) : Shape → Bool
  | short l => [l] = Argument.ofString (String.singleton letter)
  | long n none => n = Argument.ofString name
  | _ => false

def asksHelp : Shape → Bool := isSwitch 'h' "help"

def asksVersion : Shape → Bool := isSwitch 'V' "version"

end Shape

/-- After the divider every argument is one too many. -/
def afterDivider (done : Invocation) : List Argument → Invocation
  | [] => done
  | _ :: _ => .misuse

/-- The arguments of a check. A flag takes the rest of its argument after an equals sign as its
value, or else the next argument, which must not look like a flag. -/
def checkArguments (a : CheckArguments) : List Argument → Invocation
  | [] => .check a
  | arg :: rest =>
    if (Shape.of arg).asksHelp then .help .check
    else match Shape.of arg with
      | .divider => afterDivider (.check a) rest
      | .short _ => .misuse
      | .word _ => .misuse
      | .long name value =>
        match Flag.ofName? name, value with
        | none, _ => .misuse
        | some f, some v =>
          match a.set? f v with
          | some a' => checkArguments a' rest
          | none => .misuse
        | some f, none =>
          match rest with
          | [] => .misuse
          | next :: rest' =>
            match Shape.of next with
            | .word v =>
              match a.set? f v with
              | some a' => checkArguments a' rest'
              | none => .misuse
            | _ => .misuse

/-- The arguments of the command that lists the rules. -/
def rulesArguments : List Argument → Invocation
  | [] => .rules
  | arg :: rest =>
    if (Shape.of arg).asksHelp then .help .rules
    else match Shape.of arg with
      | .divider => afterDivider .rules rest
      | _ => .misuse

/-- Help may be asked for one command. -/
def helpArguments : List Argument → Invocation
  | [] => .help .program
  | [topic] =>
    if topic = Argument.ofString "check" then .help .check
    else if topic = Argument.ofString "rules" then .help .rules
    else if topic = Argument.ofString "help" then .help .help
    else .misuse
  | _ => .misuse

/-- The command that the arguments ask for. -/
def Invocation.ofArguments : List Argument → Invocation
  | [] => .misuse
  | arg :: rest =>
    if (Shape.of arg).asksHelp then .help .program
    else if (Shape.of arg).asksVersion then .version
    else if arg = Argument.ofString "check" then checkArguments {} rest
    else if arg = Argument.ofString "rules" then rulesArguments rest
    else if arg = Argument.ofString "help" then helpArguments rest
    else .misuse

end TextHygiene.Command
