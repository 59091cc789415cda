import SpendScript.Script.Run
import SpendScript.Spend.Basic

/-!
# Verifying inputs

An input may spend the output it points at if the program of its script and the output's script
succeeds. An input that points at no known output is refused.

* `VerifyError`: why there is no verdict;
* `verifyInput`.
-/

namespace SpendScript

inductive VerifyError
  | noInput (index count : Int)
  | parse (e : ParseError)
  | access (e : AccessError)
  deriving DecidableEq, Repr

namespace VerifyError

def noInputFailure (index count : Int) : Failure :=
  ⟨.outOfRange, some s!"Input index {index} out of range for transaction with {count} inputs."⟩

end VerifyError

/-- Whether the input at `index` may spend the output it points at. -/
def verifyInput (p : Primitives) (tx : Transaction) (index : Int) (coins : Coins) :
    Except VerifyError Bool × Log :=
  match tx.input? index with
  | .error e => (.error (.access e), [])
  | .ok none =>
    let count := tx.inputCount.toInt
    (.error (.noInput index count), (VerifyError.noInputFailure index count).log)
  | .ok (some input) =>
    match coins.find? input.previous with
    | none =>
      let point := s!"{input.previous.hash.display}:{input.previous.index.toNat}"
      (.ok false, Log.debug s!"Input {index} spends unknown output {point}.")
    | some spent =>
      match Program.parse p input.script spent.script with
      | .error e => (.error (.parse e), Program.parseLog e)
      | .ok program =>
        let run := program.run (Spend.environment p ⟨tx, index, coins⟩) fun _ => ()
        (run.verdict.mapError .access, run.log)

end SpendScript
