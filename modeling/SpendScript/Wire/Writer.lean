import SpendScript.Wire.Reader

/-!
# Writing

What is written is a field: an integer of some type in one of its forms, raw bytes, or bytes with
their number in front. Reading asks for the shape of a field, which is all but its value.

* `CompactSize.encode`: a number in the shortest of its four forms;
* `Field`, `Field.encode`; `Shape`, `Shape.decode`, `Field.shape`;
* `Writer.write`: appends a field and says where it begins;
* `Encoder`, `Field.encoder`: the same, piece by piece.
-/

namespace SpendScript

/-- A number below `2 ^ 64`: one byte below 253, else a mark and two, four or eight bytes. -/
def CompactSize.encode (n : Nat) : Bytes :=
  if n < 0xFD then Bytes.ofNatLE 1 n
  else if n ≤ 0xFFFF then 0xFD :: Bytes.ofNatLE 2 n
  else if n ≤ 0xFFFFFFFF then 0xFE :: Bytes.ofNatLE 4 n
  else 0xFF :: Bytes.ofNatLE 8 n

/-- Bytes with their number in front. -/
def CompactSize.prefixed (bs : Bytes) : Bytes := encode bs.length ++ bs

/-- A piece of data with its form on the wire. -/
inductive Field
  | byte (value : UInt8)
  | bytes (value : Bytes)
  | varBytes (value : Bytes)
  | fixed (t : IntType) (value : t.Value)
  | four (t : IntType) (value : t.Value)
  | eight (t : IntType) (value : t.Value)
  | varInt (t : IntType) (unsigned : t.signed = false) (value : t.Value)

/-- What has to be known of a field to read it. -/
inductive Shape
  | byte
  | bytes (length : Nat)
  | varBytes
  | fixed (t : IntType)
  | four (t : IntType)
  | eight (t : IntType)
  | varInt (t : IntType) (unsigned : t.signed = false)

namespace Field

def shape : Field → Shape
  | .byte _ => .byte
  | .bytes value => .bytes value.length
  | .varBytes _ => .varBytes
  | .fixed t _ => .fixed t
  | .four t _ => .four t
  | .eight t _ => .eight t
  | .varInt t unsigned _ => .varInt t unsigned

/-- The bytes of a field; only an integer that does not fit into four bytes has none. -/
def encode : Field → Except WireError Bytes
  | .byte value => .ok [value]
  | .bytes value => .ok value
  | .varBytes value => .ok (CompactSize.prefixed value)
  | .fixed t value => .ok (t.toBytes value)
  | .four _ value => (IntType.u32.narrow value).map IntType.u32.toBytes
  | .eight _ value => .ok (Bytes.ofNatLE 8 (IntType.u64.bits value.val))
  | .varInt _ _ value => .ok (CompactSize.encode value.val.toNat)

end Field

/-- Reads a field of the given shape. -/
def Shape.decode : Shape → Decoder Field
  | .byte => return .byte (← Decoder.byte)
  | .bytes length => return .bytes (← Decoder.take length)
  | .varBytes => return .varBytes (← Decoder.varBytes)
  | .fixed t => return .fixed t (← Decoder.fixed t)
  | .four t => return .four t (← Decoder.four t)
  | .eight t => return .eight t (← Decoder.eight t)
  | .varInt t unsigned => return .varInt t unsigned (← Decoder.varInt t)

structure Writer where
  buffer : Bytes
  deriving DecidableEq, Repr

namespace Writer

def empty : Writer := ⟨[]⟩

/-- Appends a field and returns the offset at which it begins. -/
def write (w : Writer) (field : Field) : Except WireError (Nat × Writer) := do
  let bytes ← field.encode
  return (w.buffer.length, ⟨w.buffer ++ bytes⟩)

end Writer

/-! ## Piece by piece -/

/-- A computation that appends to what was written. -/
abbrev Encoder (α : Type) : Type := ExceptT WireError (StateM Writer) α

namespace Encoder

/-- Runs an encoder; what was written is known even if something is refused. -/
def apply {α : Type} (e : Encoder α) (w : Writer) : Except WireError α × Writer := e.run.run w

/-- Appends bytes and returns the offset at which they begin. -/
def append (bs : Bytes) : Encoder Nat :=
  ExceptT.mk fun w => (.ok w.buffer.length, ⟨w.buffer ++ bs⟩)

def byte (b : UInt8) : Encoder Nat := append [b]

def fixed (t : IntType) (v : t.Value) : Encoder Nat := append (t.toBytes v)

/-- An integer in four bytes; one that does not fit is refused before anything is appended. -/
def four (t : IntType) (v : t.Value) : Encoder Nat := do fixed .u32 (← IntType.u32.narrow v)

/-- An integer in eight bytes. -/
def eight (t : IntType) (v : t.Value) : Encoder Nat :=
  fixed .u64 (IntType.u64.ofBits (IntType.u64.bits v.val))

/-- A mark and an integer behind it. -/
def marked (mark : UInt8) (t : IntType) (v : t.Value) : Encoder Nat := do
  let offset ← byte mark
  let _ ← fixed t v
  return offset

/-- A CompactSize number in its shortest form. -/
def varInt (t : IntType) (v : t.Value) : Encoder Nat :=
  let n := v.val.toNat
  if n < 0xFD then byte (UInt8.ofNat n)
  else if n ≤ 0xFFFF then marked 0xFD .u16 (IntType.u16.ofBits n)
  else if n ≤ 0xFFFFFFFF then marked 0xFE .u32 (IntType.u32.ofBits n)
  else marked 0xFF .u64 (IntType.u64.ofBits n)

/-- Bytes after their number, which is as large as a size can be. -/
def varBytes (bs : Bytes) : Encoder Nat := do
  let offset ← varInt .u64 (IntType.u64.ofBits bs.length)
  let _ ← append bs
  return offset

end Encoder

/-- Appends a field and returns the offset at which it begins. -/
def Field.encoder : Field → Encoder Nat
  | .byte value => Encoder.byte value
  | .bytes value => Encoder.append value
  | .varBytes value => Encoder.varBytes value
  | .fixed t value => Encoder.fixed t value
  | .four t value => Encoder.four t value
  | .eight t value => Encoder.eight t value
  | .varInt t _ value => Encoder.varInt t value

end SpendScript
