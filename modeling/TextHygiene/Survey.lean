import TextHygiene.Discovery
import TextHygiene.Finding
import TextHygiene.Options
import TextHygiene.Round
import TextHygiene.Scan.Shared
import TextHygiene.Survey.Collector

/-! A survey checks a list of paths against the enabled rules. Files over the size limit are left
out, the rest is checked by one thread or by many, and the findings come in one order whichever
way was taken. -/

namespace TextHygiene

/-- The failure of one rule on one path. -/
def FileSystem.check (fs : FileSystem) (t : TabSize) (r : Rule) (p : Path) : Option Failure :=
  match fs.openStream p with
  | .error e => some ⟨p, .unreadable e⟩
  | .ok s => (r.judge t s).failure? p

/-- The verdicts of many rules on one path, which is opened and read once. -/
def FileSystem.checkShared (fs : FileSystem) (t : TabSize) (rules : List Rule) (p : Path) :
    List (Rule × Verdict) :=
  match fs.openStream p with
  | .error e => rules.map fun r => (r, .failed (.unreadable e))
  | .ok s => judgeShared t s rules

structure Tally where
  filesChecked : Nat
  filesSkipped : Nat
  checksRun : Nat
  failures : Nat
deriving DecidableEq

structure Survey where
  findings : List Finding
  tally : Tally
deriving DecidableEq

namespace Survey

/-- Why a survey has no report. That no threads can be started, or that one of them fails, is left
out: it is no matter of the files. -/
inductive Problem
  | zeroTabSize
  | finishedEarly (next total : Nat)
deriving DecidableEq

def Problem.message : Problem → String
  | zeroTabSize => SettingsError.zeroTabSize.message
  | finishedEarly next total =>
    "check worker finished early (" ++ Decimal.text next ++ " of " ++ Decimal.text total ++ " files)"

/-- A file to check, with its position in the list that was given. -/
structure Candidate where
  index : Nat
  path : Path
deriving DecidableEq

/-- The host of a check: how many processors it has, and in which order the results of so many
files arrive when they are checked in parallel. -/
structure Host where
  processors : Nat := 1
  arrival : Nat → List Nat := List.range

section

variable (fs : FileSystem) (t : TabSize) (rules : List Rule)

/-- A file whose length is unknown is not left out; the rules report why. -/
def oversized (limit : Option Nat) (p : Path) : Bool :=
  match limit, fs.length? p with
  | some m, some n => m < n
  | _, _ => false

def candidates (limit : Option Nat) (paths : List Path) : List Candidate :=
  paths.zipIdx.filterMap fun (p, i) => if oversized fs limit p then none else some ⟨i, p⟩

/-- The findings of one file, in the order of the rules. -/
def fileFindings (e : Engine) (c : Candidate) : List Finding :=
  match e with
  | .perRule => rules.filterMap fun r => (fs.check t r c.path).map (⟨c.index, r, ·⟩)
  | .fused =>
    (fs.checkShared t rules c.path).filterMap fun (r, v) =>
      (v.failure? c.path).map (⟨c.index, r, ·⟩)

/-- One round over all files, with positions turned back into indices. -/
def ruleFindings (files : List Candidate) (r : Rule) : List Finding :=
  (Round.indexed (m := Id) (fs.check t r) 0 (files.map (·.path))).filterMap fun (pos, f) =>
    files[pos]?.map fun c => ⟨c.index, r, f⟩

def serial (e : Engine) (files : List Candidate) : List Finding :=
  match e with
  | .perRule => rules.flatMap (ruleFindings fs t files)
  | .fused => files.flatMap (fileFindings fs t rules .fused)

/-- The messages that reach the collector, in order of arrival. -/
def messages (e : Engine) (files : List Candidate) (arrival : List Nat) :
    List (Nat × List Finding) :=
  arrival.filterMap fun pos => files[pos]?.map fun c => (pos, fileFindings fs t rules e c)

def parallel (e : Engine) (files : List Candidate) (arrival : List Nat) :
    Except Problem (List Finding) :=
  ((Collector.receiveAll (messages fs t rules e files arrival)).finish files.length).mapError
    (.finishedEarly · files.length)

end

/-- More than one thread is put to work only when there is more than one file. -/
def isParallel (host : Host) (o : Options) (files : List Candidate) : Bool :=
  1 < o.threads.getD host.processors && 1 < files.length

def collect (host : Host) (fs : FileSystem) (t : TabSize) (rules : List Rule) (o : Options)
    (files : List Candidate) : Except Problem (List Finding) :=
  if isParallel host o files then
    parallel fs t rules o.engine files (host.arrival files.length)
  else .ok (serial fs t rules o.engine files)

def report (skipped : Nat) (rules : List Rule) (files : List Candidate)
    (findings : List Finding) : Survey :=
  let sorted := Finding.sort findings
  ⟨sorted,
    { filesChecked := files.length
      filesSkipped := skipped
      checksRun := files.length * rules.length
      failures := sorted.length }⟩

end Survey

/-- The survey of a list of paths; a tab size of 0 is refused before anything is read. -/
def FileSystem.survey (fs : FileSystem) (host : Survey.Host) (o : Options) (paths : List Path) :
    Except Survey.Problem Survey :=
  match TabSize.ofNat? o.tabSize with
  | none => .error .zeroTabSize
  | some t =>
    let rules := Rule.normalize o.rules
    let files := Survey.candidates fs o.maxFileSize paths
    let skipped := paths.countP (Survey.oversized fs o.maxFileSize)
    (Survey.collect host fs t rules o files).map (Survey.report skipped rules files)

def Survey.isClean (s : Survey) : Bool := s.findings.isEmpty

end TextHygiene
