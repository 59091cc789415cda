import SpendScript.Script.Error
import SpendScript.Script.Number
import SpendScript.Transaction.Access

/-!
# Faults

A script that asks for what is not there, or for a number that is none, is at fault. A fault ends
the script; it is never more than a reason to refuse. An access that fails is no fault: it ends the
whole run without a verdict.

* `Fault`, `Fault.error`, `Fault.message`;
* `ScriptNumber.operand`: the number of an item of at most four bytes;
* `Interruption`: a fault or a failed access.
-/

namespace SpendScript

inductive Fault
  /-- `count` items were to be removed from a stack of `size`. -/
  | popBeyond (count : Nat) (size : Int)
  | topOfEmpty
  /-- A place on the stack that holds no item, counted from the top. -/
  | noItem (position : Int)
  | numberTooLong (length : Nat)
  | publicKeyCount (count : Int)
  | signatureCount (count : Int) (keys : Nat)
  deriving DecidableEq, Repr

namespace Fault

def error : Fault → ScriptError
  | .popBeyond _ _ | .topOfEmpty | .noItem _ => .stackUnderflow
  | .numberTooLong _ => .numberOverflow
  | .publicKeyCount _ => .invalidPubkeyCount
  | .signatureCount _ _ => .invalidSignatureCount

def message : Fault → String
  | .popBeyond count size => s!"Pop({count}) of stack with {size} items."
  | .topOfEmpty => "Top() of empty stack."
  | .noItem position => s!"Accessed invalid stack position {position}."
  | .numberTooLong length => s!"Could not decode a buffer of size {length} bytes (max 4)."
  | .publicKeyCount count => s!"Public key count {count} out of range."
  | .signatureCount count keys => s!"Signature count {count} out of range for {keys} keys."

end Fault

/-- The number of an item, if it has at most four bytes. -/
def ScriptNumber.operand (item : Bytes) : Except Fault Int :=
  if 4 < item.length then .error (.numberTooLong item.length)
  else .ok (decodeAs .i32 item).value.val

inductive Interruption
  | fault (f : Fault)
  | access (e : AccessError)
  deriving DecidableEq, Repr

end SpendScript
