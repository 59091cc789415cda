import SpendScript.Digest
import SpendScript.Failure
import SpendScript.Wire.IntType

/-!
# Reading

A reader is a place in a byte sequence. A decoder moves it over what it reads; when it fails, it
says why and leaves the reader where the failing piece began.

* `Reader`, `WireError`, `Decoder`;
* `Decoder.position`, `Decoder.take`, `Decoder.byte`: raw bytes;
* `Decoder.fixed`, `Decoder.four`, `Decoder.eight`: integers of fixed width, the last two narrowed
  to the type asked for;
* `Decoder.varInt`, `Decoder.varBytes`: a CompactSize number, and bytes with their number in front.
-/

namespace SpendScript

/-- A place in a byte sequence: how many bytes lie before it, and the bytes after it. -/
structure Reader where
  position : Nat
  rest : Bytes
  deriving DecidableEq, Repr

namespace Reader

def ofBytes (data : Bytes) : Reader := ⟨0, data⟩

def remaining (r : Reader) : Nat := r.rest.length

def atEnd (r : Reader) : Bool := r.rest.isEmpty

end Reader

inductive WireError
  /-- Fewer than `length` bytes follow `position`. -/
  | pastEnd (length position : Nat)
  /-- A value of type `source` does not fit into an integer of `size` bytes. -/
  | doesNotFit (source : IntType) (value : Int) (size : Nat)
  /-- More elements are announced than any list can have. -/
  | tooMany (count : Nat)
  | noInputs
  deriving DecidableEq, Repr

def WireError.failure : WireError → Failure
  | .pastEnd length position =>
    ⟨.outOfRange, some s!"Read of {length} bytes exceeds buffer size at offset {position}."⟩
  | .doesNotFit source value size =>
    ⟨.outOfRange, some s!"Value {source.text value} does not fit in {size} bytes."⟩
  | .tooMany _ => ⟨.tooLong, none⟩
  | .noInputs =>
    ⟨.malformed, some "Transaction has zero inputs or uses witness serialization."⟩

/-- A value of `source` as a value of `target`, if it fits. -/
def IntType.narrow (target : IntType) {source : IntType} (v : source.Value) :
    Except WireError target.Value :=
  if h : target.Holds v.val then .ok ⟨v.val, h⟩
  else .error (.doesNotFit source v.val target.size)

/-- A computation that reads from the front of a byte sequence. -/
abbrev Decoder (α : Type) : Type := ExceptT WireError (StateM Reader) α

namespace Decoder

/-- Runs a decoder from a place; the place where it stops is known even if it fails. -/
def apply {α : Type} (d : Decoder α) (r : Reader) : Except WireError α × Reader := d.run.run r

/-- Where the reader stands. -/
def position : Decoder Nat := ExceptT.mk fun r => (.ok r.position, r)

def take (length : Nat) : Decoder Bytes := ExceptT.mk fun r =>
  let bytes := r.rest.take length
  if bytes.length < length then (.error (.pastEnd length r.position), r)
  else (.ok bytes, ⟨r.position + length, r.rest.drop length⟩)

def byte : Decoder UInt8 := return (← take 1).headD 0

def fixed (t : IntType) : Decoder t.Value := return t.ofBytes (← take t.size)

/-- An unsigned integer of four bytes, narrowed to `t`. -/
def four (t : IntType) : Decoder t.Value := do t.narrow (← fixed .u32)

/-- An integer of eight bytes with the sign of `t`, narrowed to `t`. -/
def eight (t : IntType) : Decoder t.Value := do
  if t.signed then t.narrow (← fixed .i64) else t.narrow (← fixed .u64)

/-- A CompactSize number, narrowed to `t`: one byte below 253, else a mark and two, four or eight
bytes. Forms longer than needed are read as well. -/
def varInt (t : IntType) : Decoder t.Value := do
  let first ← fixed .u8
  if first.val = 0xFD then t.narrow (← fixed .u16)
  else if first.val = 0xFE then t.narrow (← fixed .u32)
  else if first.val = 0xFF then t.narrow (← fixed .u64)
  else t.narrow first

/-- A number of things to come. -/
def count : Decoder Nat := return (← varInt .u64).val.toNat

/-- Bytes after their number. -/
def varBytes : Decoder Bytes := do take (← count)

def word : Decoder UInt32 := return UInt32.ofNat (← take 4).toNatLE

def amount : Decoder Int64 := return Int64.ofInt ((IntType.i64.ofBytes (← take 8)).val)

def hash256 : Decoder Hash256 := return (Digest.ofBytes? (← take 32)).getD Digest.zero

/-- `number` things, one after the other. -/
def many {α : Type} (d : Decoder α) : Nat → Decoder (List α)
  | 0 => return []
  | number + 1 => do
    let first ← d
    return first :: (← many d number)

end Decoder

end SpendScript
