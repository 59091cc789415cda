import SpendScript.Script.Action
import SpendScript.Spend.SignatureHash
import SpendScript.Transaction.Coins

/-!
# Spendings

A spending is one input of a transaction, seen against the outputs that may be spent. Scripts know
of it only through the check of a signature.

* `Spend`, `Spend.output?`, `Spend.spentOutput`: the output that is spent; `Spend.spentOutput_eq`;
* `Spend.check`: whether a key signed for the spending; `Spend.check_eq`;
* `Spend.environment`: what its scripts may ask.
-/

namespace SpendScript

/-- The input at a place of a transaction, and the outputs that may be spent. -/
structure Spend where
  transaction : Transaction
  input : Int
  coins : Coins

namespace Spend

variable (p : Primitives) (spend : Spend)

/-- The output that the input points at, if both exist. -/
def output? : Option Output :=
  match spend.transaction.input? spend.input with
  | .ok (some input) => spend.coins.find? input.previous
  | _ => none

/-- The output that is spent, looked for under an index that was found to be in range. -/
def spentOutput : Except AccessError (Option Output) := do
  match ← spend.transaction.input? spend.input with
  | none => return none
  | some input => return spend.coins.find? input.previous

/-- The access that finds the spent output is within bounds. -/
theorem spentOutput_eq : spend.spentOutput = .ok spend.output? := by
  obtain ⟨found, hfound⟩ := spend.transaction.exists_input? spend.input
  rw [spentOutput, output?, hfound]
  cases found <;> rfl

/-- Whether `key` made the signature that ends in its hash type. An empty signature is refused
before the spent output is looked for. -/
def check (signature key : Bytes) : Except AccessError (Bool × Log) :=
  match signature.getLast? with
  | none => .ok (false, [])
  | some hashType => do
    match ← spend.spentOutput with
    | none => return (false, Log.debug s!"No unspent output found for input {spend.input}.")
    | some spent =>
      let (digest, log) ← SignatureHash.hash p spend.transaction spend.input spent.script
        hashType.toUInt32
      let (answer, more) := p.verify key signature.dropLast digest
      return (answer, log ++ more)

theorem check_eq (signature key : Bytes) :
    check p spend signature key =
      match signature.getLast? with
      | none => .ok (false, [])
      | some hashType =>
        match spend.output? with
        | none => .ok (false, Log.debug s!"No unspent output found for input {spend.input}.")
        | some spent => do
          let (digest, log) ← SignatureHash.hash p spend.transaction spend.input spent.script
            hashType.toUInt32
          let (answer, more) := p.verify key signature.dropLast digest
          return (answer, log ++ more) := by
  rw [check, spentOutput_eq]
  cases signature.getLast? with
  | none => rfl
  | some hashType => cases spend.output? <;> rfl

def digest : DigestFunction → Bytes → Bytes
  | .ripemd160, data => (p.ripemd160 data).bytes
  | .sha256, data => (p.sha256 data).bytes
  | .hash160, data => (p.hash160 data).bytes
  | .hash256, data => (p.hash256 data).bytes

/-- What the scripts of the spending may ask. -/
def environment : Environment := ⟨digest p, check p spend⟩

end Spend

end SpendScript
