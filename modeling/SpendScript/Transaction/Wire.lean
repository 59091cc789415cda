import SpendScript.Primitives
import SpendScript.Transaction.Basic
import SpendScript.Wire.Writer

/-!
# Transactions on the wire

A transaction is its version, its inputs and its outputs, each list after its length, and its lock
time. The id of a transaction is the double digest of these bytes.

* `Transaction.encode`, `Transaction.decoder`;
* `Transaction.id`.
-/

namespace SpendScript

def encodeWord (w : UInt32) : Bytes := Bytes.ofNatLE 4 w.toNat

def encodeAmount (a : Int64) : Bytes := Bytes.ofNatLE 8 a.toUInt64.toNat

namespace OutPoint

def encode (p : OutPoint) : Bytes := p.hash.bytes ++ encodeWord p.index

def decoder : Decoder OutPoint := do
  let hash ← Decoder.hash256
  return ⟨hash, ← Decoder.word⟩

end OutPoint

namespace Input

def encode (input : Input) : Bytes :=
  input.previous.encode ++ CompactSize.prefixed input.script ++ encodeWord input.sequence

def decoder : Decoder Input := do
  let previous ← OutPoint.decoder
  let script ← Decoder.varBytes
  return ⟨previous, script, ← Decoder.word⟩

/-- The number of inputs from which on a list cannot be held in memory: each takes 72 bytes. -/
def maxCount : Nat := 0x7fffffffffffffff / 72

end Input

namespace Output

def encode (output : Output) : Bytes :=
  encodeAmount output.value ++ CompactSize.prefixed output.script

def decoder : Decoder Output := do
  let value ← Decoder.amount
  return ⟨value, ← Decoder.varBytes⟩

/-- The number of outputs from which on a list cannot be held in memory: each takes 32 bytes. -/
def maxCount : Nat := 0x7fffffffffffffff / 32

end Output

/-- A number of elements, refused if no memory can hold that many. -/
def Decoder.countUpTo (limit : Nat) : Decoder Nat := do
  let number ← Decoder.count
  if limit < number then throw (.tooMany number) else return number

namespace Transaction

def encode (tx : Transaction) : Bytes :=
  encodeWord tx.version ++
    (CompactSize.encode tx.inputs.length ++ tx.inputs.flatMap Input.encode) ++
    (CompactSize.encode tx.outputs.length ++ tx.outputs.flatMap Output.encode) ++
    encodeWord tx.lockTime

/-- Reads a transaction. A transaction without inputs is refused as soon as their number is read:
such bytes announce another format. -/
def decoder : Decoder Transaction := do
  let version ← Decoder.word
  let inputCount ← Decoder.countUpTo Input.maxCount
  if inputCount = 0 then throw .noInputs
  let inputs ← Input.decoder.many inputCount
  let outputCount ← Decoder.countUpTo Output.maxCount
  let outputs ← Output.decoder.many outputCount
  return ⟨version, inputs, outputs, ← Decoder.word⟩

def id (p : Primitives) (tx : Transaction) : Hash256 := p.hash256 tx.encode

end Transaction

end SpendScript
