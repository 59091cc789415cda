import SpendScript.Digest

/-!
# Transactions

A transaction spends outputs of earlier transactions, which its inputs point at, and makes new
outputs, each an amount under a locking script.

* `OutPoint`, `Input`, `Output`, `Transaction`;
* `OutPoint.null`, `OutPoint.compare`;
* `Transaction.empty`: version 1 and nothing in it.
-/

namespace SpendScript

/-- One output of an earlier transaction: the id of that transaction and the output's place. -/
structure OutPoint where
  hash : Hash256
  index : UInt32
  deriving DecidableEq, Repr

namespace OutPoint

/-- The out point that points at nothing. -/
def null : OutPoint := ⟨Digest.zero, 0xFFFFFFFF⟩

instance : Inhabited OutPoint := ⟨⟨Digest.zero, 0⟩⟩

def isNull (p : OutPoint) : Bool := p.hash.isZero && p.index == 0xFFFFFFFF

/-- By hash, then by index. -/
def compare (a b : OutPoint) : Ordering :=
  (Bytes.compare a.hash.bytes b.hash.bytes).then (Ord.compare a.index b.index)

end OutPoint

/-- A claim on an earlier output, with the script that is to unlock it. -/
@[ext] structure Input where
  previous : OutPoint
  script : Bytes
  sequence : UInt32
  deriving DecidableEq, Repr

def Input.finalSequence : UInt32 := 0xFFFFFFFF

/-- The input that added room holds: the zero out point and no script. -/
def Input.blank : Input := ⟨default, [], Input.finalSequence⟩

/-- An amount and the script that locks it. -/
structure Output where
  value : Int64
  script : Bytes
  deriving DecidableEq, Repr

/-- The output that added room holds: no amount and no script. -/
def Output.blank : Output := ⟨0, []⟩

structure Transaction where
  version : UInt32
  inputs : List Input
  outputs : List Output
  lockTime : UInt32
  deriving DecidableEq, Repr

def Transaction.empty : Transaction := ⟨1, [], [], 0⟩

end SpendScript
