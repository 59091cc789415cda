import SpendScript.Wire.IntType

/-!
# Script numbers

A script number is a magnitude, least significant byte first, whose top bit holds the sign. The
shortest form of zero is empty; longer forms of every number are read as well.

* `encode`, `decode`: the shortest form of an integer, and the integer of any form;
* `isMinimal`: whether a form is the shortest;
* `encodeAs`, `decodeAs`: the same for an integer type, in words of its width and with room for one
  byte more than it has;
* `isTruthy`: whether an item counts as true.
-/

namespace SpendScript.ScriptNumber

/-- The least number of bytes that hold a magnitude. -/
def byteCount (n : Nat) : Nat := if n = 0 then 0 else n.log2 / 8 + 1

/-- A magnitude with its sign in the top bit, in one byte more if that bit is taken. -/
def withSign (negative : Bool) : Bytes → Bytes
  | [] => []
  | [b] =>
    if b < 0x80 then [if negative then b + 0x80 else b] else [b, if negative then 0x80 else 0]
  | b :: next :: rest => b :: withSign negative (next :: rest)

def encode (v : Int) : Bytes :=
  withSign (v < 0) (Bytes.ofNatLE (byteCount v.natAbs) v.natAbs)

/-- The weight of the top bit of a form. -/
def signWeight (bs : Bytes) : Nat := 128 * Nat.pow 256 (bs.length - 1)

/-- The integer of a form: the top bit is no part of the magnitude and makes it negative. -/
def decode (bs : Bytes) : Int :=
  if bs.toNatLE < signWeight bs then bs.toNatLE else (signWeight bs : Int) - bs.toNatLE

/-- A form is the shortest unless its last byte carries the sign alone for no need. -/
def isMinimal (bs : Bytes) : Bool :=
  match bs.reverse with
  | [] => true
  | [last] => last &&& 0x7F != 0
  | last :: below :: _ => last &&& 0x7F != 0 || below ≥ 0x80

/-! ## In words of an integer type -/

/-- The magnitude of a value: its bits, or for a negative value their complement and one. -/
def magnitude (t : IntType) (v : t.Value) : BitVec (8 * t.size) :=
  let bits := BitVec.ofInt (8 * t.size) v.val
  if v.val < 0 then ~~~bits + 1 else bits

/-- One byte more in a buffer that has room for `room` bytes. -/
def put (room : Nat) (bs : Bytes) (b : UInt8) : Option Bytes :=
  if bs.length < room then some (bs ++ [b]) else none

/-- Puts a magnitude into a buffer byte by byte, until nothing is left of it. -/
def putMagnitude {width : Nat} (room : Nat) (n : BitVec width) (bs : Bytes) : Option Bytes :=
  if _h : n = 0 then some bs
  else do
    let bs ← put room bs (UInt8.ofNat n.toNat)
    putMagnitude room (n >>> 8) bs
termination_by n.toNat
decreasing_by
  have hpos : 0 < n.toNat := Nat.pos_of_ne_zero fun h => _h (BitVec.eq_of_toNat_eq h)
  rw [BitVec.toNat_ushiftRight, Nat.shiftRight_eq_div_pow]
  exact Nat.div_lt_self hpos (by decide)

/-- The shortest form of a value, made in a buffer with room for one byte more than the type has;
`none` if that were not enough. -/
def encodeAs (t : IntType) (v : t.Value) : Option Bytes :=
  if v.val = 0 then some []
  else do
    let room := t.size + 1
    let bs ← putMagnitude room (magnitude t v) []
    let bs ← if bs.getLast?.any (· &&& 0x80 != 0) then put room bs 0 else some bs
    return if v.val < 0 then bs.modify (bs.length - 1) (· ||| 0x80) else bs

/-- The value of a form, and whether the form is the shortest. -/
structure Decoded (t : IntType) where
  value : t.Value
  minimal : Bool

/-- A word moved up by one byte, which is filled in; what was in the top byte is lost. -/
def shiftIn {width : Nat} (n : BitVec width) (b : UInt8) : BitVec width :=
  n <<< 8 ||| b.toBitVec.setWidth width

/-- The value of a form, read from its last byte to its first. -/
def decodeAs (t : IntType) (bs : Bytes) : Decoded t :=
  match bs.reverse with
  | [] => ⟨t.ofBits 0, true⟩
  | last :: lower =>
    let magnitude : BitVec (8 * t.size) := lower.foldl shiftIn (shiftIn 0 (last &&& 0x7F))
    let bits := if last &&& 0x80 != 0 then ~~~magnitude + 1 else magnitude
    ⟨t.ofBits bits.toNat, isMinimal bs⟩

/-! ## Truth -/

/-- An item is false if it is empty, all zero, or zeros below a lone sign bit. -/
def isTruthy : Bytes → Bool
  | [] => false
  | [b] => b != 0 && b != 0x80
  | b :: next :: rest => b != 0 || isTruthy (next :: rest)

end SpendScript.ScriptNumber
