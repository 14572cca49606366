import Playbook.Inspection
import Playbook.Library

/-!
# Command line

`compile` compiles a library, `inspect` shows what would become of one command. Options come in
any order, each at most once: `--name value`, `--name=value` or, for those with a letter,
`-n value`, `-nvalue` and `-n=value`. A separate value is not itself like an option, and behind
`--` there are no options.

Results:
* `run_of_invalid_budget`: without a valid budget nothing is asked of the disk.
-/
namespace Playbook.CommandLine

open Disk

/-! ## Options -/

inductive Verb
  | compile
  | inspect
  deriving Repr, DecidableEq

inductive Flag
  | source
  | output
  | limit
  | threshold
  | scope
  deriving Repr, DecidableEq

def Flag.name : Flag → Text
  | source => "source"
  | output => "output"
  | limit => "max-size"
  | threshold => "threshold"
  | scope => "prefix"

def Flag.letter? : Flag → Option Char
  | source => some 's'
  | output => some 'o'
  | limit | threshold | scope => none

def Verb.name : Verb → Text
  | compile => "compile"
  | inspect => "inspect"

def Verb.flags : Verb → List Flag
  | compile => [.source, .output, .limit, .threshold, .scope]
  | inspect => [.limit, .threshold, .scope]

/-- What the arguments give. -/
structure Given where
  source? : Option Path
  output? : Option Path
  limit? : Option Nat
  threshold? : Option Double
  scope? : Option Text
  file? : Option Path
  deriving Repr, DecidableEq

namespace Given

def nothing : Given := ⟨none, none, none, none, none, none⟩

/-- A path must not be empty. -/
def path? (value : Text) : Option Path := if value.isEmpty then none else some ⟨value⟩

/-- A count has decimal digits, perhaps behind a plus sign, and fits into 64 bits. -/
def count? (value : Text) : Option Nat :=
  let digits := Text.strip "+" value
  if digits.isEmpty || !digits.all Text.isAsciiDigit then none
  else
    let n := Double.digitsValue digits
    if n < Nat.pow 2 64 then some n else none

/-- A value for a place that has none yet. -/
def fill {α : Type} : (place value : Option α) → Option (Option α)
  | none, some value => some (some value)
  | _, _ => none

/-- Nothing if the value is of no use or the option has one already. -/
def set (g : Given) (flag : Flag) (value : Text) : Option Given :=
  match flag with
  | .source => (fill g.source? (path? value)).map fun v => { g with source? := v }
  | .output => (fill g.output? (path? value)).map fun v => { g with output? := v }
  | .limit => (fill g.limit? (count? value)).map fun v => { g with limit? := v }
  | .threshold => (fill g.threshold? (Double.parse? value)).map fun v => { g with threshold? := v }
  | .scope => (fill g.scope? (some value)).map fun v => { g with scope? := v }

/-- Only `inspect` takes an operand, and only one. -/
def addOperand (g : Given) (verb : Verb) (value : Text) : Option Given :=
  match verb with
  | .compile => none
  | .inspect => (fill g.file? (path? value)).map fun v => { g with file? := v }

end Given

/-! ## Arguments -/

/-- What one argument is by its looks. -/
inductive Token
  | help
  | ended
  | option (flag : Flag) (value? : Option Text)
  | operand
  | unknown

def Token.ofArgument (flags : List Flag) (argument : Text) : Token :=
  match argument with
  | ['-', '-'] => .ended
  | '-' :: '-' :: long =>
    let name := long.takeWhile (· ≠ '=')
    let value? := (long.dropWhile (· ≠ '=')).tail?
    if name = "help" then if value?.isNone then .help else .unknown
    else match flags.find? (·.name = name) with
      | some flag => .option flag value?
      | none => .unknown
  | '-' :: letter :: rest =>
    if letter = 'h' then .help
    else match flags.find? (·.letter? = some letter) with
      | some flag => .option flag (if rest.isEmpty then none else some (Text.strip "=" rest))
      | none => .unknown
  | _ => .operand

def looksLikeOption : Text → Bool
  | '-' :: _ :: _ => true
  | _ => false

inductive Reading
  | given (g : Given)
  | help
  | usage

def readOperands (verb : Verb) : Given → List Text → Reading
  | g, [] => .given g
  | g, argument :: rest =>
    match g.addOperand verb argument with
    | some g => readOperands verb g rest
    | none => .usage

def read (verb : Verb) : Given → List Text → Reading
  | g, [] => .given g
  | g, argument :: rest =>
    match Token.ofArgument verb.flags argument with
    | .help => .help
    | .unknown => .usage
    | .ended => readOperands verb g rest
    | .operand =>
      match g.addOperand verb argument with
      | some g => read verb g rest
      | none => .usage
    | .option flag (some value) =>
      match g.set flag value with
      | some g => read verb g rest
      | none => .usage
    | .option flag none =>
      match rest with
      | [] => .usage
      | value :: rest =>
        if looksLikeOption value then .usage
        else match g.set flag value with
          | some g => read verb g rest
          | none => .usage

/-! ## Tasks -/

inductive Job
  | compile (source output : Path)
  | inspect (file : Path)
  deriving Repr, DecidableEq

structure Task where
  job : Job
  limit : Nat
  threshold : Double
  scope : Text
  deriving Repr, DecidableEq

/-- What a list of arguments asks for. -/
inductive Order
  | run (task : Task)
  | help
  | version
  | usage

/-- The task that is given; `compile` needs nothing, `inspect` a file. -/
def Given.order (verb : Verb) (g : Given) : Order :=
  let task (job : Job) : Order := .run
    { job := job
      limit := g.limit?.getD Budget.defaultLimit
      threshold := g.threshold?.getD Budget.defaultThreshold
      scope := g.scope?.getD Bundle.defaultScope }
  match verb with
  | .compile =>
    let source := g.source?.getD (.ofString ".")
    task (.compile source (g.output?.getD (source.join ⟨Host.dataDir⟩)))
  | .inspect =>
    match g.file? with
    | some file => task (.inspect file)
    | none => .usage

def Reading.order (verb : Verb) : Reading → Order
  | given g => g.order verb
  | help => .help
  | usage => .usage

/-- The help for a verb, if there is one. -/
def helpOn (topics : List Text) : Order :=
  match topics with
  | [] => .help
  | [topic] =>
    if topic = "help" || topic = Verb.compile.name || topic = Verb.inspect.name then .help
    else .usage
  | _ => .usage

def parse : List Text → Order
  | [] => .usage
  | first :: rest =>
    if first = Verb.compile.name then (read .compile .nothing rest).order .compile
    else if first = Verb.inspect.name then (read .inspect .nothing rest).order .inspect
    else if first = "help" then helpOn rest
    else if first = "--help" || Text.startsWith "-h" first then .help
    else if first = "--version" || Text.startsWith "-V" first then .version
    else .usage

/-! ## Outcomes -/

/-- The exit code and what is printed. -/
structure Outcome where
  code : Nat
  out : Text
  err : Text
  deriving Repr, DecidableEq

namespace Outcome

def success (out : Text) : Outcome := ⟨0, out, []⟩

/-- A failure after `out` has been printed. -/
def failed (out : Text) (failure : Failure) : Outcome :=
  ⟨1, out, "Error: " ++ failure.message ++ "\n"⟩

end Outcome

def programName : Text := "antigravity-compiler"

def programVersion : Text := "0.1.0"

def usageText : Text :=
  "Usage: " ++ programName ++ " compile [-s|--source DIR] [-o|--output DIR] [OPTIONS]\n" ++
  "       " ++ programName ++ " inspect FILE [OPTIONS]\n\n" ++
  "Options:\n" ++
  "  --max-size N     most characters of a workflow file (10000)\n" ++
  "  --threshold F    fraction of them at which phases move out (0.9)\n" ++
  "  --prefix P       leading part of workflow ids and file names (gsd:)\n"

def workflowText (budget : Budget) (scope : Text) (w : Library.Summary) : Text :=
  let size := Text.ofNat w.main.size
  let split : Text :=
    if w.satellites.isEmpty then " chars)\n"
    else " chars, split into " ++ Text.ofNat w.satellites.length ++ " sub-workflows)\n"
  let warning : Text :=
    if budget.exceeds w.main.size then
      "    ⚠ over the " ++ Text.ofNat budget.limit ++ " character limit\n"
    else ""
  "  ✓ " ++ Bundle.qualified scope w.main.id ++ " (" ++ size ++ split ++ warning

def reportText (l : Library) (r : Library.Report) : Text :=
  let workflows : Text := r.workflows.flatMap (workflowText l.settings.budget l.settings.scope)
  let resources : Text := r.resources.flatMap fun (name, count) =>
    "  Resources/" ++ name ++ ": " ++ Text.ofNat count ++ "\n"
  let rules : Text := if r.rules then "" else "  Rules: not found\n"
  workflows ++ "\n  Skills: " ++ Text.ofNat r.skills.length ++ "\n  Workflows: " ++
    Text.ofNat r.workflowFiles ++ "\n" ++ resources ++ rules ++ "\nOutput: " ++ l.output.text ++
    "\n"

/-- Compile a library. What is printed before the work starts stays printed if it fails. -/
def runCompile (l : Library) : Script Outcome := do
  if ← Script.leadsTo .directory l.source then
    let opening : Text := "Compiling " ++ l.source.text ++ " → " ++ l.output.text ++ "\n\n"
    match ← l.compile.recover with
    | .ok report => return .success (opening ++ reportText l report)
    | .error failure => return .failed opening failure
  else return .failed [] (.missingSource l.source)

/-- Inspect the command in a file. -/
def runInspect (budget : Budget) (scope : Text) (file : Path) : Script Outcome := do
  match ← (Script.readText file).recover with
  | .error failure => return .failed [] failure
  | .ok source =>
    match file.fileStem? with
    | none => return .failed [] (.invalidPath file)
    | some name =>
      let inspection := Inspection.inspect budget scope name source
      return .success (inspection.render budget scope)

def runTask (task : Task) : Script Outcome :=
  match Budget.check task.limit task.threshold with
  | .error failure => .done (.failed [] failure)
  | .ok budget =>
    match task.job with
    | .compile source output =>
      runCompile ⟨source, output, .standard, ⟨budget, task.scope, .standard⟩⟩
    | .inspect file => runInspect budget task.scope file

theorem run_of_invalid_budget {task : Task} {failure : Failure}
    (h : Budget.check task.limit task.threshold = .error failure) :
    runTask task = .done (.failed [] failure) := by
  simp [runTask, h]

/-- What the program does with its arguments. -/
def run (arguments : List Text) : Script Outcome :=
  match parse arguments with
  | .run task => runTask task
  | .help => .done (.success usageText)
  | .version => .done (.success (programName ++ " " ++ programVersion ++ "\n"))
  | .usage => .done ⟨2, [], usageText⟩

end Playbook.CommandLine
