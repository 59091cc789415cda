import Std.Data.HashMap
import SpendScript.Transaction.Access
import SpendScript.Transaction.Wire

/-!
# Unspent outputs

A snapshot of the outputs that may be spent, kept under their out points. Adding under a point
that is already there replaces what it held.

* `Coins`, `Coins.empty`, `Coins.find?`, `Coins.size`, `Coins.isEmpty`;
* `Coins.add`, `Coins.addOutputs`: one output, and all outputs of a transaction.
-/

namespace SpendScript

instance : Hashable OutPoint := ⟨fun p => mixHash (hash p.hash.bytes) (hash p.index)⟩

structure Coins where
  outputs : Std.HashMap OutPoint Output

namespace Coins

def empty : Coins := ⟨∅⟩

def find? (coins : Coins) (point : OutPoint) : Option Output := coins.outputs[point]?

def size (coins : Coins) : Int32 := .ofNat coins.outputs.size

def isEmpty (coins : Coins) : Bool := coins.outputs.isEmpty

/-- The snapshot in which `point` leads to `output`. -/
def add (coins : Coins) (point : OutPoint) (output : Output) : Coins :=
  ⟨coins.outputs.insert point output⟩

theorem find?_empty (point : OutPoint) : empty.find? point = none := by simp [find?, empty]

theorem find?_add (coins : Coins) (point : OutPoint) (output : Output) (query : OutPoint) :
    (coins.add point output).find? query =
      if point = query then some output else coins.find? query := by
  by_cases h : point = query <;> simp [find?, add, Std.HashMap.getElem?_insert, h]

/-- The out points of a transaction's outputs, as many as an int counts, with the outputs. -/
def created (p : Primitives) (tx : Transaction) : List (OutPoint × Output) :=
  let hash := tx.id p
  let outputs := tx.outputs.take tx.outputCount.toInt.toNat
  outputs.zipIdx.map fun (output, index) => (⟨hash, UInt32.ofNat index⟩, output)

def addOutputs (p : Primitives) (coins : Coins) (tx : Transaction) : Coins :=
  (created p tx).foldl (fun coins entry => coins.add entry.1 entry.2) coins

end Coins

end SpendScript
