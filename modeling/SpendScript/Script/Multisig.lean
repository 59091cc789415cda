import SpendScript.Script.Action

/-!
# Several signatures of several keys

Signatures must stand in the order of their keys. Each key is tried once, for the first signature
that has not found its key yet, and the search ends as soon as fewer keys than signatures are
left.

* `matchFrom`: the search;
* `takeCounted`, `checkMultiSig`: the operation on the stack.
-/

namespace SpendScript.Multisig

def maxKeys : Nat := 20

/-- Whether every signature from index `i` on finds a key of its own from index `j` on, in order, by
trying the keys in turn. -/
def matchFrom (check : Bytes → Bytes → Action Bool) (signatures keys : List Bytes) (i j : Nat) :
    Action Bool :=
  if signatures.length ≤ i then return true
  else if keys.length + i < signatures.length + j then return false
  else do
    let signature ← Action.element signatures i
    let key ← Action.element keys j
    if ← check signature key then matchFrom check signatures keys (i + 1) (j + 1)
    else matchFrom check signatures keys i (j + 1)
termination_by keys.length - j

/-- A count at the top of the stack and that many items below it are removed; the items are
returned deepest first. A count out of range is refused before anything is removed. -/
def takeCounted (valid : Int → Bool) (refusal : Int → Fault) : Action (List Bytes) := do
  let count ← Action.number 0
  if !valid count then throw (.fault (refusal count))
  Action.pop 1
  Action.takeCount count

/-- Takes keys, signatures and one item more, and pushes whether the signatures match. -/
def checkMultiSig (env : Environment) : Action Unit := do
  let keys ← takeCounted (fun n => 0 ≤ n && n ≤ maxKeys) .publicKeyCount
  let signatures ← takeCounted (fun m => 0 ≤ m && m ≤ keys.length)
    fun m => .signatureCount m keys.length
  Action.pop 1
  Action.pushBool (← matchFrom (Action.check env) signatures keys 0 0)

end SpendScript.Multisig
