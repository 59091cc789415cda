import SpendScript.Bytes

/-!
# Script errors

A script is refused when it is read, because of a byte, or when it runs, because of what it does.
Errors of reading name the byte and the place where it stands.

* `ScriptError`, `ScriptError.text`, `ScriptError.ofCode?`;
* `describe`: an error with its byte and place;
* `ParseError`, `ParseError.text`.
-/

namespace SpendScript

/-- Why a script is refused: the first two arise when it is read, the others when it runs. -/
inductive ScriptError
  | unsupportedOpcode
  | truncatedPush
  | stackUnderflow
  | numberOverflow
  | invalidPubkeyCount
  | invalidSignatureCount
  deriving DecidableEq, Repr

namespace ScriptError

def ofCode? : Int → Option ScriptError
  | 0 => some .unsupportedOpcode
  | 1 => some .truncatedPush
  | 2 => some .stackUnderflow
  | 3 => some .numberOverflow
  | 4 => some .invalidPubkeyCount
  | 5 => some .invalidSignatureCount
  | _ => none

def text : ScriptError → String
  | .unsupportedOpcode => "unsupported opcode"
  | .truncatedPush => "truncated push"
  | .stackUnderflow => "stack underflow"
  | .numberOverflow => "number overflow"
  | .invalidPubkeyCount => "invalid public key count"
  | .invalidSignatureCount => "invalid signature count"

def describe (error? : Option ScriptError) (offset : Int) (opcode : UInt8) : String :=
  let digits := String.ofList (Nat.toDigits 16 opcode.toNat)
  let reason := (error?.map text).getD "unknown error"
  s!"{reason} (opcode 0x{digits} at offset {offset})"

end ScriptError

/-- The byte at which a script cannot be read, and how many bytes lie before it. -/
structure ParseError where
  error : ScriptError
  offset : Nat
  opcode : UInt8
  deriving DecidableEq, Repr

def ParseError.text (e : ParseError) : String :=
  ScriptError.describe (some e.error) e.offset e.opcode

end SpendScript
