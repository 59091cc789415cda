import SpendScript.Address
import SpendScript.Script.Operation

/-!
# Programs

An unlocking and a locking script are read as one stream, and the operations found in it are one
program. The first push of the size of a key hash or of a key tells whom the script pays.

* `Tokenizer.operationsBehind`, `Tokenizer.operations`: the operations that are left in a script;
* `Program`, `Program.parse`: the program of a script pair;
* `Operation.address?`, `Operation.addressAfter`, `Program.addressOf`;
* `Program.listing`.
-/

namespace SpendScript

/-- The address that a push names: 20 bytes are the hash of a key, 65 bytes a key. -/
def Operation.address? (p : Primitives) : Operation → Option String
  | .push data =>
    if h : data.length = 20 then some (Address.ofHash160 p Address.mainVersion ⟨data, h⟩)
    else if data.length = 65 then some (Address.ofPublicKey p Address.mainVersion data)
    else none
  | _ => none

/-- The address after one more operation. The empty text says that none has been found so far; any
other stays. -/
def Operation.addressAfter (p : Primitives) (address : String) (operation : Operation) : String :=
  if address.isEmpty then (operation.address? p).getD "" else address

/-- Reads the operations that are left, behind those that were read, the latest first. The error is
the first one from the left: an instruction that stands for no operation, or a push that is cut. -/
def Tokenizer.operationsBehind (done : List Operation) (t : Tokenizer) :
    Except ParseError (List Operation) :=
  match _step : t.next with
  | (none, last) =>
    match last.error? with
    | some e => .error e
    | none => .ok done.reverse
  | (some i, t') =>
    match Operation.ofInstruction? i with
    | some operation => operationsBehind (operation :: done) t'
    | none => .error ⟨.unsupportedOpcode, i.offset, i.opcode⟩
termination_by t.rest.length
decreasing_by exact length_rest_of_next t _step

/-- The operations that are left to read. -/
def Tokenizer.operations (t : Tokenizer) : Except ParseError (List Operation) :=
  t.operationsBehind []

/-- Operations, and the address that they pay to, if they name one. -/
structure Program where
  operations : List Operation
  address : String
  deriving DecidableEq, Repr

namespace Program

/-- The address found after all operations; the empty text if they name none. -/
def addressOf (p : Primitives) (operations : List Operation) : String :=
  operations.foldl (Operation.addressAfter p) ""

def operationsOf (script : Bytes) : Except ParseError (List Operation) :=
  (Tokenizer.ofBytes script).operations

/-- The program of an unlocking script followed by a locking script. -/
def parse (p : Primitives) (unlocking locking : Bytes) : Except ParseError Program := do
  let operations ← operationsOf (unlocking ++ locking)
  return ⟨operations, addressOf p operations⟩

def parseLog (e : ParseError) : Log := Log.debug s!"Script parse failed: {e.text}"

/-- One operation a line, between two marks. -/
def listing (program : Program) : String :=
  "\n".intercalate ("-- BEGIN ----" :: program.operations.map Operation.label ++ ["-- END ----"])

end Program

end SpendScript
