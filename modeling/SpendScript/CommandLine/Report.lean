import SpendScript.CommandLine.Arguments
import SpendScript.Log.Sink
import SpendScript.Spend.Verify

/-!
# The command line

The scripts are listed with the address they pay to; if a spending transaction is given, its input
is verified against the one output that it spends. Nothing is printed on the way: the report holds
all that is to be shown, and the exit code.

* `ExitCode`, `Report`;
* `Request`, `Request.ofOptions`: the decoded options, or what is wrong with them;
* `Request.report`: listing and verification;
* `run`: arguments to report.
-/

namespace SpendScript.CommandLine

inductive ExitCode
  | valid
  | invalid
  | parseError
  | usageError
  /-- An error has left the program, which the system then ends. -/
  | aborted
  deriving DecidableEq, Repr

def ExitCode.toNat : ExitCode → Nat
  | .valid => 0
  | .invalid => 1
  | .parseError => 2
  | .usageError => 3
  | .aborted => 134

/-- Exit code, standard output, standard error, and the text for the log file. -/
structure Report where
  exit : ExitCode
  stdout : String
  stderr : String
  logfile : String
  deriving DecidableEq, Repr

/-! ## Fixed texts -/

def title : String := "Sigil 0.1.0"

def helpText : String :=
  title ++ " command-line options:\n" ++
    "  --help, -h\n    Show this help message\n" ++
    "  --version\n    Show version information\n" ++
    String.join (Key.all.map Key.helpLines)

/-! ## Decoding the options -/

/-- Why a request cannot be carried out: the lines for standard error and the log. -/
structure Refusal where
  stderr : String
  log : Log
  deriving DecidableEq, Repr

/-- What is asked for: a script pair and, to verify it, a transaction with the index of one of its
inputs and the amount that it spends. -/
structure Request where
  unlocking : Bytes
  locking : Bytes
  spending? : Option (Transaction × Input)
  index : Int
  amount : Int64
  deriving DecidableEq, Repr

namespace Request

def badHex (key : Key) : String := s!"Error: --{key.name} is not a valid hex string.\n"

/-- What is said of a list too long to be held, the only failure without words of its own. -/
def tooLongText : String := "vector::_M_default_append"

def badTransaction (f : Failure) : Refusal :=
  let reason := f.message?.getD tooLongText
  ⟨s!"Error: --tx could not be decoded: {reason}\n", f.log⟩

/-- The transaction that takes up all of the bytes. -/
def wholeTransaction (data : Bytes) : Except Failure Transaction :=
  match Transaction.decoder.apply (Reader.ofBytes data) with
  | (.error e, _) => .error e.failure
  | (.ok tx, reader) =>
    if reader.atEnd then .ok tx
    else .error ⟨.malformed, some s!"{reader.remaining} trailing bytes after transaction."⟩

/-- The transaction and the input that the options ask to verify, if they ask for it. -/
def spendingOf (o : Options) : Except Refusal (Option (Transaction × Input)) :=
  if o.tx.isEmpty then .ok none
  else
    match Hex.decode o.tx with
    | none => .error ⟨badHex .tx, []⟩
    | some data =>
      match wholeTransaction data with
      | .error f => .error (badTransaction f)
      | .ok tx =>
        match tx.input? o.input with
        | .ok (some input) => .ok (some (tx, input))
        | _ =>
          let count := tx.inputCount.toInt
          .error ⟨s!"Error: --input {o.input} is out of range for a transaction with {count} inputs.\n",
            []⟩

/-- The unlocking script: the one given, or that of the spending input. -/
def unlockingOf (o : Options) (given : Bytes) (spending? : Option (Transaction × Input)) : Bytes :=
  match spending? with
  | some (_, input) => if o.unlocking.isEmpty then input.script else given
  | none => given

/-- Decodes the options. Both scripts are looked at before either is refused. -/
def ofOptions (o : Options) : Except Refusal Request :=
  match Hex.decode o.locking, Hex.decode o.unlocking with
  | none, none => .error ⟨badHex .locking ++ badHex .unlocking, []⟩
  | none, some _ => .error ⟨badHex .locking, []⟩
  | some _, none => .error ⟨badHex .unlocking, []⟩
  | some locking, some given => do
    let spending? ← spendingOf o
    return ⟨unlockingOf o given spending?, locking, spending?, o.input, Int64.ofInt o.amount⟩

end Request

/-! ## Listing and verifying -/

def stepLine (step : Step) : String :=
  let failed := if step.ok then "" else "  FAILED"
  let top := match step.stack.top.map Bytes.ofArray with
    | .ok (b :: bs) => Hex.encode (b :: bs)
    | _ => "<empty>"
  s!"  [{step.index}] {step.operation.label}{failed}  depth={step.stack.size}  top={top}\n"

/-- The entries that the program shows: debugging is left out. -/
def shown (log : Log) : Log := log.upTo .info

namespace Request

variable (p : Primitives) (r : Request)

/-- The snapshot with the one output that is spent. -/
def coins (input : Input) : Coins := Coins.empty.add input.previous ⟨r.amount, r.locking⟩

def execute {α : Type} (observe : Step → α) (program : Program) (tx : Transaction) (input : Input) :
    Run α :=
  program.run (Spend.environment p ⟨tx, r.index, r.coins input⟩) observe

/-- Lists the program and verifies the spending, if there is one. -/
def report (sink : Sink) (time : Int) (trace : Bool) : Report :=
  match Program.parse p r.unlocking r.locking with
  | .error e => ⟨.parseError, "", s!"Parse error: {e.text}\n", ""⟩
  | .ok program =>
    let address := if program.address.isEmpty then "" else s!"Address: {program.address}\n"
    let listing := s!"{program.listing}\n{address}"
    match r.spending? with
    | none => ⟨.valid, listing, "", ""⟩
    | some (tx, input) =>
      let verifying := s!"Verifying input {r.index} of transaction {(tx.id p).display}."
      let run := r.execute p stepLine program tx input
      let (console, file) := sink.showLog time (shown (Log.info verifying ++ run.log))
      let steps := if trace then String.join run.observations else ""
      let (exit, result) := match run.verdict with
        | .ok true => (ExitCode.valid, "Result: VALID\n")
        | .ok false => (ExitCode.invalid, "Result: INVALID\n")
        | .error _ => (ExitCode.aborted, "")
      ⟨exit, listing ++ console ++ steps ++ result, "", file⟩

end Request

/-! ## All together -/

def sinkOf (o : Options) : Sink := { Sink.initial.withFile o.logfile with console := !o.quiet }

/-- The report on arguments, with log lines that show the given time. -/
def run (p : Primitives) (time : Int) (arguments : List String) : Report :=
  match Decision.ofArguments Options.initial arguments with
  | .help => ⟨.valid, helpText, "", ""⟩
  | .version => ⟨.valid, title ++ "\n", "", ""⟩
  | .unknown name => ⟨.usageError, "", s!"Unknown command-line option: {name}\n" ++ helpText, ""⟩
  | .refused key text =>
    let (console, file) := Sink.initial.showLog time (key.refusalFailure text).log
    ⟨.usageError, console, s!"Error: {key.refusal text}\n" ++ helpText, file⟩
  | .proceed o =>
    match Request.ofOptions o with
    | .error refusal =>
      let (console, file) := (sinkOf o).showLog time (shown refusal.log)
      ⟨.usageError, console, refusal.stderr, file⟩
    | .ok request => request.report p (sinkOf o) time o.trace

/-- The log file that arguments name, if they name one and come to run. -/
def logfileOf? (arguments : List String) : Option String :=
  match Decision.ofArguments Options.initial arguments with
  | .proceed o => if o.logfile.isEmpty then none else some o.logfile
  | _ => none

end SpendScript.CommandLine
