import SpendScript.Script.Error
import SpendScript.Script.Opcode

/-!
# Instructions

A script is read as a stream of instructions: a byte, and the data it announces. Reading stops for
good at the end, or at a byte that announces more data than there is.

* `Instruction`, `Instruction.bytes`;
* `Tokenizer`, `Tokenizer.peek?`, `Tokenizer.next`.
-/

namespace SpendScript

/-- A byte of a script with the data it announces, and how many bytes lie before it. -/
structure Instruction where
  opcode : UInt8
  offset : Nat
  data : Bytes
  deriving DecidableEq, Repr

def Instruction.bytes (i : Instruction) : Bytes := i.opcode :: i.data

/-! ## Reading -/

/-- A place in a script: how many bytes lie before it, the bytes after it, and the error that ended
the reading, if any. -/
structure Tokenizer where
  offset : Nat
  rest : Bytes
  error? : Option ParseError
  deriving DecidableEq, Repr

namespace Tokenizer

def ofBytes (script : Bytes) : Tokenizer := ⟨0, script, none⟩

variable (t : Tokenizer)

def peek? : Option UInt8 := t.rest.head?

def announced (opcode : UInt8) : Nat := if isPushSize opcode then opcode.toNat else 0

/-- The next instruction and the place after it. If less data follows than announced, the rest is
skipped and the error is kept. -/
def next : Option Instruction × Tokenizer :=
  match t.rest with
  | [] => (none, t)
  | opcode :: rest =>
    let data := rest.take (announced opcode)
    if data.length < announced opcode then
      (none, ⟨t.offset + t.rest.length, [], some ⟨.truncatedPush, t.offset, opcode⟩⟩)
    else
      (some ⟨opcode, t.offset, data⟩,
        { t with offset := t.offset + 1 + data.length, rest := rest.drop (announced opcode) })

theorem length_rest_of_next {i : Instruction} {t' : Tokenizer} (h : t.next = (some i, t')) :
    t'.rest.length < t.rest.length := by
  unfold next at h
  split at h
  · simp at h
  · rename_i opcode rest hrest
    dsimp only at h
    split at h
    · simp at h
    · obtain ⟨-, rfl⟩ := Prod.mk.inj h
      rw [hrest, List.length_cons, List.length_drop]
      omega

end Tokenizer

end SpendScript
