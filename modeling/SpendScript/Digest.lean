import SpendScript.Hex

/-!
# Digests

A digest is a byte sequence of fixed length, kept in memory order. People read it backwards: its
text starts with the last byte.

* `Digest size`, `Hash256`, `Hash160`;
* `Digest.ofBytes?`, `Digest.zero`, `Digest.isZero`;
* `Digest.display`: the text of a transaction id.
-/

namespace SpendScript

/-- A byte sequence of length `size`. -/
structure Digest (size : Nat) where
  bytes : Bytes
  length_bytes : bytes.length = size
  deriving DecidableEq, Repr

abbrev Hash256 := Digest 32

abbrev Hash160 := Digest 20

attribute [simp] Digest.length_bytes

namespace Digest

variable {size : Nat}

@[ext] theorem ext {a b : Digest size} (h : a.bytes = b.bytes) : a = b := by
  cases a; cases b; cases h; rfl

/-- The digest with these bytes, if their number is right. -/
def ofBytes? (bytes : Bytes) : Option (Digest size) :=
  if h : bytes.length = size then some ⟨bytes, h⟩ else none

def zero : Digest size := ⟨List.replicate size 0, List.length_replicate⟩

instance : Inhabited (Digest size) := ⟨zero⟩

def isZero (d : Digest size) : Bool := d.bytes.all (· == 0)

/-- The hexadecimal text of the bytes in reverse order. -/
def display (d : Digest size) : String := Hex.encode d.bytes.reverse

end Digest

end SpendScript
