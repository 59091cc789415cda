import SpendScript.Hex
import SpendScript.Script.Instruction
import SpendScript.Script.Multisig

/-!
# Operations

An operation of a program pushes data or does what its opcode stands for. It succeeds, fails, or
is interrupted; only success lets the program go on.

* `UnaryFunction.eval`, `BinaryFunction.eval`: arithmetic in words of 64 bits;
* `Shuffle.run`, `Opcode.run`;
* `Operation`, `Operation.run`, `Operation.label`.
-/

namespace SpendScript

/-! ## Arithmetic -/

/-- One for true and zero for false. -/
def truthNumber (p : Bool) : Int64 := if p then 1 else 0

def UnaryFunction.eval : UnaryFunction → Int64 → Int64
  | .succ, a => a + 1
  | .pred, a => a - 1
  | .negate, a => -a
  | .isZero, a => truthNumber (a == 0)
  | .isNonzero, a => truthNumber (a != 0)

def BinaryFunction.eval : BinaryFunction → Int64 → Int64 → Int64
  | .add, a, b => a + b
  | .sub, a, b => a - b
  | .equal, a, b => truthNumber (a == b)
  | .less, a, b => truthNumber (a < b)
  | .greater, a, b => truthNumber (b < a)
  | .min, a, b => if a < b then a else b
  | .max, a, b => if a < b then b else a

def UnaryFunction.run (f : UnaryFunction) : Action Unit := do
  let a ← Action.number 0
  Action.pop 1
  Action.pushInt (f.eval (.ofInt a)).toInt

def BinaryFunction.run (f : BinaryFunction) : Action Unit := do
  let a ← Action.number 1
  let b ← Action.number 0
  Action.pop 2
  Action.pushInt (f.eval (.ofInt a) (.ofInt b)).toInt

/-! ## Moving items -/

/-- What a move does; the number of items and the length of an item are pushed as numbers of 32
bits. -/
def Shuffle.run : Shuffle → Action Unit
  | .dropTwo => Action.pop 2
  | .dupTwo => do
    let a ← Action.view 1
    let b ← Action.view 0
    Action.append a
    Action.append b
  | .depth => do Action.pushInt (← Action.size).toInt
  | .drop => Action.pop 1
  | .dup => do Action.append (← Action.viewTop)
  | .nip => do
    let item ← Action.takeTop
    Action.pop 1
    Action.push item
  | .over => do Action.append (← Action.view 1)
  | .swap => do
    let upper ← Action.takeTop
    let lower ← Action.takeTop
    Action.push upper
    Action.push lower
  | .size => do Action.pushInt (Int32.ofNat (← Action.viewTop).size).toInt

/-! ## Opcodes -/

def Opcode.runEqual : Action Unit := do
  let a ← Action.peek 1
  let b ← Action.peek 0
  Action.pop 2
  Action.pushBool (a == b)

/-- Takes a key and a signature and pushes whether the key signed. -/
def Opcode.runCheckSig (env : Environment) : Action Unit := do
  let key ← Action.takeTop
  let signature ← Action.takeTop
  Action.pushBool (← Action.check env signature key)

/-- What an opcode does; the value tells whether the program may go on. -/
def Opcode.run (env : Environment) : Opcode → Action Bool
  | .immediate value => do Action.pushInt value.val; return true
  | .nop => return true
  | .verify => Action.takeTruth
  | .unspendable => return false
  | .shuffle move => do move.run; return true
  | .equal => do runEqual; return true
  | .equalVerify => do runEqual; Action.takeTruth
  | .unary f => do f.run; return true
  | .binary f => do f.run; return true
  | .numEqualVerify => do BinaryFunction.equal.run; Action.takeTruth
  | .digest f => do
    let item ← Action.top
    Action.pop 1
    Action.push (env.digest f item)
    return true
  | .codeSeparator => return true
  | .checkSig => do runCheckSig env; return true
  | .checkSigVerify => do runCheckSig env; Action.takeTruth
  | .checkMultiSig => do Multisig.checkMultiSig env; return true
  | .checkMultiSigVerify => do Multisig.checkMultiSig env; Action.takeTruth

/-! ## Operations -/

inductive Operation
  | push (data : Bytes)
  | code (op : Opcode)
  /-- Fails whatever the stack holds. -/
  | fail
  deriving DecidableEq, Repr

namespace Operation

def run (env : Environment) : Operation → Action Bool
  | .push data => do Action.push data; return true
  | .code op => op.run env
  | .fail => return false

def label : Operation → String
  | .push data => s!"PUSH({data.length}) {Hex.encode data}"
  | .code op => op.name
  | .fail => "FAIL"

def ofInstruction? (i : Instruction) : Option Operation :=
  if isPushSize i.opcode then some (.push i.data) else (Opcode.ofByte? i.opcode).map .code

end Operation

end SpendScript
