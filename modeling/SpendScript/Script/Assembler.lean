import SpendScript.Failure
import SpendScript.Script.Number
import SpendScript.Script.Opcode

/-!
# Assembling scripts

Scripts are put together from pieces: data, numbers, opcodes and raw bytes. Data of more than 75
bytes cannot be announced by one byte and is refused before anything is written.

* `Assembly`, `Assembly.apply`: a computation that writes at the end of a script;
* `Assembly.append`, `Assembly.data`, `Assembly.number`;
* `Piece`, `Piece.write`, `Piece.writeAll`;
* `assemble`: a script extended by a piece.
-/

namespace SpendScript

/-- Data that is too long to be announced. -/
structure PushTooLong where
  length : Nat
  deriving DecidableEq, Repr

def PushTooLong.failure (e : PushTooLong) : Failure :=
  ⟨.invalidArgument, some s!"Push of {e.length} bytes exceeds the 75 byte limit."⟩

/-- A computation that writes at the end of a script. -/
abbrev Assembly (α : Type) : Type := ExceptT PushTooLong (StateM Bytes) α

namespace Assembly

/-- Runs an assembly; the script is known even if something is refused. -/
def apply {α : Type} (a : Assembly α) (script : Bytes) : Except PushTooLong α × Bytes :=
  a.run script

def append (bytes : Bytes) : Assembly Unit := modify (· ++ bytes)

/-- Data after its length; empty data is the opcode of zero. -/
def data (bytes : Bytes) : Assembly Unit :=
  if bytes.isEmpty then append [Immediate.byte ⟨0, by decide⟩]
  else if bytes.length ≤ 75 then do
    append [UInt8.ofNat bytes.length]
    append bytes
  else throw ⟨bytes.length⟩

/-- A number is its own opcode, if it has one, and data otherwise. -/
def number (value : Int) : Assembly Unit :=
  match Immediate.ofInt? value with
  | some immediate => append [immediate.byte]
  | none => data (ScriptNumber.encode value)

end Assembly

/-- What a script is made of. -/
inductive Piece
  | data (bytes : Bytes)
  | number (value : Int)
  | opcode (byte : UInt8)
  | raw (byte : UInt8)
  deriving DecidableEq, Repr

namespace Piece

def write : Piece → Assembly Unit
  | .data bytes => Assembly.data bytes
  | .number value => Assembly.number value
  | .opcode byte | .raw byte => Assembly.append [byte]

/-- Writes pieces in order. -/
def writeAll : List Piece → Assembly Unit
  | [] => return
  | piece :: pieces => do
    piece.write
    writeAll pieces

end Piece

/-- The script with one more piece at its end. -/
def assemble (script : Bytes) (piece : Piece) : Except PushTooLong Bytes :=
  match piece.write.apply script with
  | (.ok (), script') => .ok script'
  | (.error e, _) => .error e

end SpendScript
