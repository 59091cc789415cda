import SpendScript.Bytes

/-!
# Integer types

The eight widths and signs of integers that the wire format knows. A value of such a type is an
integer together with the proof that it fits, so that overflow is never a silent matter.

* `IntType`, `IntType.Holds`, `IntType.Value`;
* `IntType.ofBits`, `IntType.bits`: two's complement;
* `IntType.toBytes`, `IntType.ofBytes`: the little-endian bytes of a value;
* `IntType.text`: how a value is shown in a message.
-/

namespace SpendScript

inductive IntType
  | u8
  | u16
  | u32
  | u64
  | i8
  | i16
  | i32
  | i64
  deriving DecidableEq, Repr

namespace IntType

/-- The width in bytes. -/
def size : IntType → Nat
  | .u8 | .i8 => 1
  | .u16 | .i16 => 2
  | .u32 | .i32 => 4
  | .u64 | .i64 => 8

def signed : IntType → Bool
  | .i8 | .i16 | .i32 | .i64 => true
  | .u8 | .u16 | .u32 | .u64 => false

/-- The number of values. -/
def modulus (t : IntType) : Nat := Nat.pow 256 t.size

def minValue (t : IntType) : Int := if t.signed then -(t.modulus / 2 : Nat) else 0

def maxValue (t : IntType) : Int := if t.signed then (t.modulus / 2 : Nat) - 1 else t.modulus - 1

def Holds (t : IntType) (v : Int) : Prop := t.minValue ≤ v ∧ v ≤ t.maxValue

instance (t : IntType) (v : Int) : Decidable (t.Holds v) := by unfold Holds; infer_instance

abbrev Value (t : IntType) : Type := {v : Int // t.Holds v}

/-- The integer with the sign of the type that is congruent to `n`. -/
def wrap (t : IntType) (n : Nat) : Int :=
  if t.signed then (n : Int).bmod t.modulus else (n : Int) % t.modulus

theorem holds_wrap (t : IntType) (n : Nat) : t.Holds (t.wrap n) := by
  cases t <;> simp [Holds, wrap, minValue, maxValue, modulus, size, signed, Int.bmod_def] <;> omega

/-- The value whose two's complement has these low bits. -/
def ofBits (t : IntType) (n : Nat) : t.Value := ⟨t.wrap n, t.holds_wrap n⟩

/-- The two's complement of an integer at the width of the type. -/
def bits (t : IntType) (v : Int) : Nat := (v % t.modulus).toNat

def toBytes (t : IntType) (v : t.Value) : Bytes := Bytes.ofNatLE t.size (t.bits v.val)

def ofBytes (t : IntType) (bs : Bytes) : t.Value := t.ofBits bs.toNatLE

/-- The text of a value in a message: decimal digits, but one character for a type of one byte. A
negative byte is no character of any text and is shown by the replacement character. -/
def text (t : IntType) (v : Int) : String :=
  if t.size = 1 then
    if 0 ≤ v ∧ v < 128 then String.singleton (Char.ofNat v.toNat) else "\uFFFD"
  else toString v

end IntType

end SpendScript
