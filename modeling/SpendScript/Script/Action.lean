import SpendScript.Log
import SpendScript.Script.Opcode
import SpendScript.Script.Stack

/-!
# Actions on the stack

What an operation does is an action: it changes the operand stack, may add to the log, and ends in
a value, a fault, or an error from outside the script. What was done before the end stays done.

* `Machine`, `Action`, `Action.apply`;
* `Environment`: what a script may ask of the outside;
* `Action.viewTop`, `view`: an item as it lies in the buffer; `top`, `peek`, `number`, `size`;
* `Action.append`, `push`, `pushBool`, `pushInt`; `Action.pop`, `clear`, `takeTop`, `takeMany`,
  `takeCount`; `Action.element`, `Action.check`.
-/

namespace SpendScript

structure Machine where
  stack : Stack
  log : Log
  ints : Ints

/-- The machine at the start of an operation. -/
def Machine.on (stack : Stack) : Machine := ⟨stack, [], .exact⟩

/-- A computation on the operand stack. -/
abbrev Action (α : Type) : Type := ExceptT Interruption (StateM Machine) α

/-- What a script may ask of the outside: digests, and whether a key signed for the spending at
hand. -/
structure Environment where
  digest : DigestFunction → Bytes → Bytes
  check : (signature key : Bytes) → Except AccessError (Bool × Log)

namespace Action

/-- Runs an action; the machine is known even if the action is interrupted. -/
def apply {α : Type} (action : Action α) (m : Machine) : Except Interruption α × Machine :=
  action.run m

/-! ## Looking -/

/-- What a look at the stack finds. -/
def inspect {α : Type} (look : Stack → Except Interruption α) : Action α :=
  ExceptT.mk fun m => (look m.stack, m)

def viewTop : Action ByteArray := inspect Stack.top

def view (position : Int) : Action ByteArray := inspect fun s => s.peek position

def top : Action Bytes := return Bytes.ofArray (← viewTop)

def peek (position : Int) : Action Bytes := return Bytes.ofArray (← view position)

def number (position : Int) : Action Int := inspect fun s => s.number position

def size : Action Int32 := inspect fun s => .ok s.size

/-! ## Changing -/

/-- Adds an item on top. -/
def append (bytes : ByteArray) : Action Unit := ExceptT.mk fun ⟨stack, log, ints⟩ =>
  let made := stack.appendInts bytes
  (.ok (), ⟨stack.append bytes, log, ints.and made⟩)

def push (bytes : Bytes) : Action Unit := append bytes.toByteArray

/-- Pushes the one-byte item of one, or the empty item. -/
def pushBool (flag : Bool) : Action Unit := push (if flag then ScriptNumber.encode 1 else [])

def pushInt (v : Int) : Action Unit := push (ScriptNumber.encode v)

/-- Removes the `count` topmost items. Their places are given up first, so they are gone even if
the buffer cannot be cut. -/
def pop (count : Nat) : Action Unit := ExceptT.mk fun m =>
  match m.stack.drop count with
  | .error f => (.error (.fault f), m)
  | .ok left =>
    let ints := m.ints.and left.trimInts
    match left.trim with
    | .ok stack => (.ok (), ⟨stack, m.log, ints⟩)
    | .error e => (.error (.access e), ⟨left, m.log, ints⟩)

/-- Removes all items. -/
def clear : Action Unit := ExceptT.mk fun m => (.ok (), { m with stack := .empty })

/-- Removes the topmost item and returns it. -/
def takeTop : Action Bytes := do
  let item ← top
  pop 1
  return item

/-- Removes `count` items, topmost first, and puts them in front of `above`: the result has the
deepest first. -/
def takeMany : Nat → List Bytes → Action (List Bytes)
  | 0, above => return above
  | count + 1, above => do
    let item ← takeTop
    takeMany count (item :: above)

/-- Removes as many items as a number says and returns them, the deepest first. Room is made for
them before; no room can have a negative length. -/
def takeCount (count : Int) : Action (List Bytes) :=
  if count < 0 then throw (.access (.badLength count)) else takeMany count.toNat []

/-- Removes the topmost item and tells whether it was true. -/
def takeTruth : Action Bool := return ScriptNumber.isTruthy (← takeTop)

/-! ## Asking -/

/-- The element of a list at an index; there is none beyond its end. -/
def element {α : Type} (xs : List α) (index : Nat) : Action α :=
  match elementAt xs index with
  | .ok a => return a
  | .error e => throw (.access e)

/-- Whether a key signed for the spending at hand. -/
def check (env : Environment) (signature key : Bytes) : Action Bool := ExceptT.mk fun m =>
  match env.check signature key with
  | .ok (answer, log) => (.ok answer, { m with log := m.log ++ log })
  | .error e => (.error (.access e), m)

end Action

end SpendScript
