import SpendScript.Script.Program

/-!
# Running programs

Operations run in order on an empty stack until one does not succeed. An observer is shown each
operation that was tried, with the stack it left behind. In the end the topmost item decides.

* `Step`: what an observer is shown;
* `Operation.attempt`: one operation; `Program.finish`: the decision by the topmost item;
* `Run`, `Program.runBehind`, `Program.run`.
-/

namespace SpendScript

/-- An operation that was tried: its place in the program, whether it succeeded, and the stack
after it. -/
structure Step where
  index : Nat
  operation : Operation
  ok : Bool
  stack : Stack

/-- The machine with more in its log. -/
def Machine.note (m : Machine) (log : Log) : Machine := { m with log := m.log ++ log }

/-- Tries an operation on a stack: whether it succeeded, or the error that ends the run. A fault is
a failure that is logged twice. -/
def Operation.attempt (env : Environment) (index : Nat) (operation : Operation) (stack : Stack) :
    Except AccessError Bool × Machine :=
  let (outcome, m) := (operation.run env).apply (.on stack)
  let failed := Log.debug s!"Script failed at step {index} ({operation.label})."
  match outcome with
  | .ok true => (.ok true, m)
  | .ok false => (.ok false, m.note failed)
  | .error (.fault f) =>
    let faulted := Log.debug s!"Step {index} ({operation.label}) faulted: {f.message}"
    (.ok false, m.note (faulted ++ failed))
  | .error (.access e) => (.error e, m)

/-- What is known after a run: the observations, the verdict, the log, and whether all ints of the
stack were exact. -/
structure Run (α : Type) where
  observations : List α
  verdict : Except AccessError Bool
  log : Log
  ints : Ints

namespace Program

/-- The topmost item is taken and decides; an empty stack refuses. -/
def finish (stack : Stack) : Except AccessError Bool × Machine :=
  let (outcome, m) := Action.takeTruth.apply (.on stack)
  match outcome with
  | .ok ok => (.ok ok, m)
  | .error (.fault f) => (.ok false, m.note (Log.debug s!"Final verify faulted: {f.message}"))
  | .error (.access e) => (.error e, m)

/-- Runs operations, the first of which has place `index`, on a stack, behind a run so far: what was
observed and logged in it, the latest first. -/
def runBehind {α : Type} (env : Environment) (observe : Step → α) (done : List α) (log : Log)
    (ints : Ints) : Nat → List Operation → Stack → Run α
  | _, [], stack =>
    let (verdict, m) := finish stack
    ⟨done.reverse, verdict, log.reverse ++ m.log, ints.and m.ints⟩
  | index, operation :: operations, stack =>
    match operation.attempt env index stack with
    | (.error e, m) => ⟨done.reverse, .error e, log.reverse ++ m.log, ints.and m.ints⟩
    | (.ok ok, m) =>
      let done := observe ⟨index, operation, ok, m.stack⟩ :: done
      if ok then
        runBehind env observe done (m.log.reverse ++ log) (ints.and m.ints) (index + 1) operations
          m.stack
      else ⟨done.reverse, .ok false, log.reverse ++ m.log, ints.and m.ints⟩

def run {α : Type} (env : Environment) (observe : Step → α) (program : Program) : Run α :=
  runBehind env observe [] [] .exact 0 program.operations Stack.empty

end Program

end SpendScript
