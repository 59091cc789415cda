import SpendScript.Failure
import SpendScript.Transaction.Basic

/-!
# Access by index

Inputs and outputs are reached by signed indices, and lists are given new lengths. An index
without an element, a negative length and a place outside of a buffer are refused without words.

* `AccessError`;
* `toInt_ofNat_le`, `toInt_ofNat_eq_of_lt`: the int of 32 bits that a number is made into;
* `elementAt`, `updateAt`, `resizeTo`: on any list; `elementAt_eq_ok`, `updateAt_eq_ok`,
  `resizeTo_eq_ok`: at a place of the list;
* `Transaction.input`, `output`, `setScript`, `setSequence`, `setOutput`, `resizeInputs`,
  `resizeOutputs`; `updateInput_eq_ok`, `setOutput_eq_ok`, `resizeInputs_eq_ok`,
  `resizeOutputs_eq_ok`;
* `Transaction.inputCount`, `outputCount`: how many there are, by an int; `Transaction.input?`: an
  input if its index is below their number; `input?_eq_some_iff`, `exists_input?`;
* `Transaction.atEach`: a change at one place after the other.
-/

namespace SpendScript

/-- An index, a length or a place that a list does not have. -/
inductive AccessError
  | noElement (index : Int)
  | badLength (length : Int)
  | outside (offset size : Int)
  deriving DecidableEq, Repr

def AccessError.failure : AccessError → Failure
  | .noElement _ | .outside _ _ => ⟨.outOfRange, none⟩
  | .badLength _ => ⟨.tooLong, none⟩

/-! ## Ints -/

/-- An int of 32 bits never stands for more than the number that it is made of. -/
theorem toInt_ofNat_le (n : Nat) : (Int32.ofNat n).toInt ≤ n := by
  rw [Int32.toInt_ofNat', Int.bmod_def, Int32.size]
  omega

/-- It stands for the number itself if that is no more than `2 ^ 32` and the int is positive. -/
theorem toInt_ofNat_eq_of_lt {n k : Nat} (hn : n ≤ 0x100000000)
    (hk : (k : Int) < (Int32.ofNat n).toInt) : (Int32.ofNat n).toInt = n := by
  rw [Int32.toInt_ofNat', Int.bmod_def, Int32.size] at *
  omega

/-! ## Lists -/

section List

variable {α : Type}

def elementAt (xs : List α) (index : Int) : Except AccessError α :=
  if h : 0 ≤ index ∧ index.toNat < xs.length then .ok (xs.get ⟨index.toNat, h.2⟩)
  else .error (.noElement index)

def updateAt (xs : List α) (index : Int) (f : α → α) : Except AccessError (List α) :=
  if 0 ≤ index ∧ index.toNat < xs.length then .ok (xs.modify index.toNat f)
  else .error (.noElement index)

/-- The list cut or filled up to a length. -/
def resizeTo (blank : α) (xs : List α) (length : Int) : Except AccessError (List α) :=
  if 0 ≤ length then
    .ok (xs.take length.toNat ++ List.replicate (length.toNat - xs.length) blank)
  else .error (.badLength length)

theorem elementAt_eq_ok {xs : List α} {n : Nat} (h : n < xs.length) :
    elementAt xs n = .ok xs[n] := by
  have hn : 0 ≤ (n : Int) ∧ (n : Int).toNat < xs.length := ⟨by omega, h⟩
  rw [elementAt, dif_pos hn]
  rfl

theorem updateAt_eq_ok {xs : List α} {n : Nat} (h : n < xs.length) (f : α → α) :
    updateAt xs n f = .ok (xs.modify n f) := by
  have hn : 0 ≤ (n : Int) ∧ (n : Int).toNat < xs.length := ⟨by omega, h⟩
  rw [updateAt, if_pos hn]
  rfl

theorem resizeTo_eq_ok {blank : α} {xs : List α} {n : Nat} (h : n ≤ xs.length) :
    resizeTo blank xs n = .ok (xs.take n) := by
  rw [resizeTo, if_pos (by omega), Int.toNat_natCast, Nat.sub_eq_zero_of_le h, List.replicate_zero,
    List.append_nil]

end List

namespace Transaction

variable (tx : Transaction)

def inputCount : Int32 := .ofNat tx.inputs.length

def outputCount : Int32 := .ofNat tx.outputs.length

theorem toNat_inputCount_le : tx.inputCount.toInt.toNat ≤ tx.inputs.length := by
  have hcount := toInt_ofNat_le tx.inputs.length
  rw [inputCount]
  omega

theorem toNat_outputCount_le : tx.outputCount.toInt.toNat ≤ tx.outputs.length := by
  have hcount := toInt_ofNat_le tx.outputs.length
  rw [outputCount]
  omega

def input (index : Int) : Except AccessError Input := elementAt tx.inputs index

def output (index : Int) : Except AccessError Output := elementAt tx.outputs index

/-- The input at an index that is in range, if it is. -/
def input? (index : Int) : Except AccessError (Option Input) :=
  if index < 0 ∨ tx.inputCount.toInt ≤ index then .ok none else (tx.input index).map some

def updateInput (index : Int) (f : Input → Input) : Except AccessError Transaction := do
  return { tx with inputs := ← updateAt tx.inputs index f }

def setScript (index : Int) (script : Bytes) : Except AccessError Transaction :=
  tx.updateInput index fun input => { input with script }

def setSequence (index : Int) (sequence : UInt32) : Except AccessError Transaction :=
  tx.updateInput index fun input => { input with sequence }

def setOutput (index : Int) (output : Output) : Except AccessError Transaction := do
  return { tx with outputs := ← updateAt tx.outputs index fun _ => output }

def resizeInputs (count : Int) : Except AccessError Transaction := do
  return { tx with inputs := ← resizeTo Input.blank tx.inputs count }

def resizeOutputs (count : Int) : Except AccessError Transaction := do
  return { tx with outputs := ← resizeTo Output.blank tx.outputs count }

/-- The transaction after a change at each place below `count`, in turn. -/
def atEach (count : Nat) (change : Transaction → Nat → Except AccessError Transaction) :
    Except AccessError Transaction :=
  (List.range count).foldlM change tx

variable {tx} {n : Nat}

theorem input?_eq_some_iff {index : Int} {found : Input} :
    tx.input? index = .ok (some found) ↔
      0 ≤ index ∧ index < tx.inputCount.toInt ∧ tx.input index = .ok found := by
  rw [input?]
  split
  · next h => exact ⟨nofun, fun ⟨hpos, hlt, _⟩ => by omega⟩
  · next h =>
    have hpos : 0 ≤ index := by omega
    have hlt : index < tx.inputCount.toInt := by omega
    rw [and_iff_right hpos, and_iff_right hlt]
    cases tx.input index with
    | error e => exact ⟨nofun, nofun⟩
    | ok input => simp [Except.map]

/-- **An input in range is there**: looking for it is never refused. -/
theorem exists_input? (tx : Transaction) (index : Int) : ∃ found, tx.input? index = .ok found := by
  rw [input?]
  split
  · exact ⟨none, rfl⟩
  · next h =>
    obtain ⟨n, rfl⟩ := Int.eq_ofNat_of_zero_le (show 0 ≤ index by omega)
    have hcount := toInt_ofNat_le tx.inputs.length
    have hn : n < tx.inputs.length := by
      rw [inputCount] at h
      omega
    exact ⟨some tx.inputs[n], by rw [input, elementAt_eq_ok hn]; rfl⟩

theorem updateInput_eq_ok (h : n < tx.inputs.length) (f : Input → Input) :
    tx.updateInput n f = .ok { tx with inputs := tx.inputs.modify n f } := by
  rw [updateInput, updateAt_eq_ok h]
  rfl

theorem setOutput_eq_ok (h : n < tx.outputs.length) (output : Output) :
    tx.setOutput n output = .ok { tx with outputs := tx.outputs.modify n fun _ => output } := by
  rw [setOutput, updateAt_eq_ok h]
  rfl

theorem resizeInputs_eq_ok (h : n ≤ tx.inputs.length) :
    tx.resizeInputs n = .ok { tx with inputs := tx.inputs.take n } := by
  rw [resizeInputs, resizeTo_eq_ok h]
  rfl

theorem resizeOutputs_eq_ok (h : n ≤ tx.outputs.length) :
    tx.resizeOutputs n = .ok { tx with outputs := tx.outputs.take n } := by
  rw [resizeOutputs, resizeTo_eq_ok h]
  rfl

end Transaction

end SpendScript
