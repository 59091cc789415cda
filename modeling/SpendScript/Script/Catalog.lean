import SpendScript.Failure
import SpendScript.Script.Opcode

/-!
# Catalogs of opcodes

A catalog gives names to bytes. It starts with the opcodes of the language and takes further
names, one for each byte that is still free and does not announce data.

* `Catalog`, `Catalog.standard`, `Catalog.lookup`, `Catalog.contains`;
* `Catalog.register`, `RegistrationError`.
-/

namespace SpendScript

/-- Why a byte cannot be named. -/
inductive RegistrationError
  /-- The byte announces data. -/
  | reserved (byte : UInt8)
  /-- The byte has a name already. -/
  | taken (byte : UInt8) (name : String)
  deriving DecidableEq, Repr

def RegistrationError.failure : RegistrationError → Failure
  | .reserved byte =>
    ⟨.invalidArgument, some s!"Opcode byte {byte.toNat} is reserved for data pushes."⟩
  | .taken byte name =>
    ⟨.conflict, some s!"Opcode byte {byte.toNat} registered twice ({name})."⟩

/-- Names of bytes. -/
structure Catalog where
  names : List (UInt8 × String)
  deriving DecidableEq, Repr

namespace Catalog

/-- The opcodes of the language. -/
def standard : Catalog := ⟨Opcode.all.map fun op => (op.byte, op.name)⟩

variable (catalog : Catalog)

def lookup (byte : UInt8) : Option String := catalog.names.lookup byte

def contains (byte : UInt8) : Bool := (catalog.lookup byte).isSome

def register (byte : UInt8) (name : String) : Except RegistrationError Catalog :=
  if isPushSize byte then .error (.reserved byte)
  else if catalog.contains byte then .error (.taken byte name)
  else .ok ⟨(byte, name) :: catalog.names⟩

end Catalog

end SpendScript
