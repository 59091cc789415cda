import SpendScript.Transaction.Access
import SpendScript.Transaction.Wire

/-!
# What a signature signs

A signature covers a transaction from which parts were struck out, followed by the hash type that
says which. Signature scripts are never covered; the locking script stands in their place.

* `HashType.outputs`, `HashType.onlyOwnInput`: what a hash type leaves in;
* `SignatureHash.putCode`, `SignatureHash.strikeUncovered`, `SignatureHash.isolateInput`,
  `SignatureHash.cover`: the transaction with the uncovered parts struck out;
* `SignatureHash.message`: the bytes that are signed;
* `SignatureHash.hash`: their digest.
-/

namespace SpendScript

inductive OutputCoverage
  | all
  | none
  /-- The output at the place of the signed input. -/
  | single
  deriving DecidableEq, Repr

/-- A number that says what a signature covers. -/
abbrev HashType := UInt32

namespace HashType

/-- The low five bits choose among the outputs. -/
def outputs (hashType : HashType) : OutputCoverage :=
  if hashType &&& 0x1f = 2 then .none
  else if hashType &&& 0x1f = 3 then .single
  else .all

/-- The bit 0x80 leaves out all other inputs. -/
def onlyOwnInput (hashType : HashType) : Bool := hashType &&& 0x80 != 0

end HashType

namespace SignatureHash

/-- The transaction without scripts of inputs, but with `code` in place of the one at `index`. -/
def putCode (index : Int) (code : Bytes) (tx : Transaction) : Except AccessError Transaction := do
  let blank ← tx.atEach tx.inputCount.toInt.toNat fun tx i => tx.setScript i []
  blank.setScript index code

/-- The transaction without sequence numbers of other inputs than the one at `index`. -/
def strikeSequences (index : Int) (tx : Transaction) : Except AccessError Transaction :=
  tx.atEach tx.inputCount.toInt.toNat fun tx i =>
    if (i : Int) = index then return tx else tx.setSequence i 0

/-- The output that stands for one that is not covered. -/
def struckOutput : Output := ⟨-1, []⟩

/-- The transaction without the outputs that are not covered and, unless all are, without the
sequence numbers of other inputs. -/
def strikeUncovered (coverage : OutputCoverage) (index : Int) (tx : Transaction) :
    Except AccessError Transaction :=
  match coverage with
  | .all => return tx
  | .none => do
    let free ← strikeSequences index tx
    free.resizeOutputs 0
  | .single => do
    let free ← strikeSequences index tx
    let cut ← free.resizeOutputs (index + 1)
    cut.atEach index.toNat fun tx i => tx.setOutput i struckOutput

/-- The transaction without the other inputs than the one at `index`. -/
def isolateInput (index : Int) (tx : Transaction) : Except AccessError Transaction := do
  let own ← tx.input index
  let alone ← tx.resizeInputs 1
  alone.updateInput 0 fun _ => own

/-- The transaction with all struck out that a signature of the input at `index` does not cover,
and with `code` in place of that input's script. -/
def cover (tx : Transaction) (index : Int) (code : Bytes) (hashType : HashType) :
    Except AccessError Transaction := do
  let signed ← putCode index code tx
  let signed ← strikeUncovered hashType.outputs index signed
  if hashType.onlyOwnInput then isolateInput index signed else return signed

/-- The bytes that are signed: the covered transaction and the hash type. -/
def message (tx : Transaction) (index : Int) (code : Bytes) (hashType : HashType) :
    Except AccessError Bytes := do
  return (← cover tx index code hashType).encode ++ encodeWord hashType

def one : Hash256 := ⟨1 :: List.replicate 31 0, by decide⟩

/-- The digest that a signature of the input at `index` signs. It is the number one if there is no
such input, or no output at its place where only that output would be covered. -/
def hash (p : Primitives) (tx : Transaction) (index : Int) (code : Bytes) (hashType : HashType) :
    Except AccessError (Hash256 × Log) :=
  if index < 0 ∨ tx.inputCount.toInt ≤ index then
    .ok (one, Log.debug s!"Signature hash input index {index} out of range.")
  else if hashType.outputs = .single ∧ tx.outputCount.toInt ≤ index then
    .ok (one, Log.debug s!"SIGHASH_SINGLE input {index} has no matching output.")
  else (message tx index code hashType).map fun bytes => (p.hash256 bytes, [])

end SignatureHash

end SpendScript
