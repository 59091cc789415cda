import SpendScript.Proofs.Wire.Integer
import SpendScript.Transaction.Wire

/-!
# Transactions as fields

A transaction is written field by field. The fields of four bytes are words, and a word always
fits, so a writer refuses none of them; what it appends are the bytes of the transaction.

* `Writer.writeAll`, `Writer.Writes`: fields that are always written, and their bytes;
* `Field.word`, `Field.amount`, `Field.count`: the integers of a transaction;
* `OutPoint.fields`, `Input.fields`, `Output.fields`, `Transaction.fields`;
* **`Transaction.writes_fields`**, `Transaction.written_eq`: they are written for any transaction.
-/

namespace SpendScript

/-! ## Writing fields -/

namespace Writer

/-- Appends fields, one after the other. -/
def writeAll (w : Writer) (fields : List Field) : Except WireError Writer :=
  fields.foldlM (fun w field => (·.2) <$> w.write field) w

/-- Fields that any writer accepts, and the bytes that it appends for them. -/
def Writes (fields : List Field) (bytes : Bytes) : Prop :=
  ∀ w : Writer, w.writeAll fields = .ok ⟨w.buffer ++ bytes⟩

theorem writes_nil : Writes [] [] := by
  intro w
  rw [List.append_nil]
  rfl

theorem writes_singleton {field : Field} {bytes : Bytes} (h : field.encode = .ok bytes) :
    Writes [field] bytes := by
  intro w
  rw [writeAll, List.foldlM_cons, write, h]
  rfl

theorem Writes.append {fields fields' : List Field} {bytes bytes' : Bytes}
    (h : Writes fields bytes) (h' : Writes fields' bytes') :
    Writes (fields ++ fields') (bytes ++ bytes') := by
  intro w
  have hrest := h' ⟨w.buffer ++ bytes⟩
  have hfirst := h w
  unfold writeAll at hfirst hrest ⊢
  rw [List.foldlM_append, hfirst, ← List.append_assoc]
  exact hrest

theorem writes_flatMap {α : Type} {fields : α → List Field} {encode : α → Bytes}
    (h : ∀ a, Writes (fields a) (encode a)) (as : List α) :
    Writes (as.flatMap fields) (as.flatMap encode) := by
  induction as with
  | nil => exact writes_nil
  | cons a as ih => exact (h a).append ih

end Writer

open Writer

/-! ## The integers of a transaction -/

namespace Field

theorem holds_word (w : UInt32) : IntType.u32.Holds w.toNat :=
  (IntType.holds_natCast rfl).mpr w.toNat_lt

theorem holds_amount (a : Int64) : IntType.i64.Holds a.toInt :=
  ⟨a.le_toInt, Int.le_sub_one_of_lt a.toInt_lt⟩

/-- A word, written in four bytes. -/
def word (w : UInt32) : Field := .four .u32 ⟨w.toNat, holds_word w⟩

/-- An amount, written in eight bytes. -/
def amount (a : Int64) : Field := .eight .i64 ⟨a.toInt, holds_amount a⟩

/-- The number of things to come, as many as a size can count. -/
def count (n : Nat) : Field := .varInt .u64 rfl (IntType.u64.ofBits n)

/-- **A word is never refused**: it is narrowed to the type that it has. -/
theorem writes_word (w : UInt32) : Writes [word w] (encodeWord w) := by
  have hfits : IntType.u32.narrow ⟨w.toNat, holds_word w⟩ = .ok ⟨w.toNat, holds_word w⟩ :=
    dif_pos (holds_word w)
  refine writes_singleton ?_
  rw [word, encode, hfits, Except.map, IntType.toBytes_natCast]
  rfl

theorem bits_amount (a : Int64) : IntType.u64.bits a.toInt = a.toUInt64.toNat := by
  have hm : IntType.modulus .u64 = 2 ^ 64 := by decide
  rw [IntType.bits, hm, Int64.toInt, BitVec.toInt_eq_toNat_bmod]
  change (Int.bmod a.toUInt64.toNat (2 ^ 64) % (2 ^ 64 : Nat)).toNat = a.toUInt64.toNat
  rw [Int.bmod_emod]
  have hlt := a.toUInt64.toNat_lt
  omega

theorem writes_amount (a : Int64) : Writes [amount a] (encodeAmount a) := by
  refine writes_singleton ?_
  rw [amount, encode, bits_amount]
  rfl

theorem writes_count (n : Nat) : Writes [count n] (CompactSize.encode (n % 2 ^ 64)) := by
  have hvalue : (IntType.u64.ofBits n).val.toNat = n % 2 ^ 64 := rfl
  exact writes_singleton (congrArg (fun m => Except.ok (CompactSize.encode m)) hvalue)

end Field

/-! ## The fields of a transaction -/

open SpendScript.Field

namespace OutPoint

def fields (point : OutPoint) : List Field := [.bytes point.hash.bytes] ++ [word point.index]

theorem writes_fields (point : OutPoint) : Writes point.fields point.encode :=
  (writes_singleton rfl).append (writes_word _)

end OutPoint

namespace Input

def fields (input : Input) : List Field :=
  input.previous.fields ++ [.varBytes input.script] ++ [word input.sequence]

theorem writes_fields (input : Input) : Writes input.fields input.encode :=
  (input.previous.writes_fields.append (writes_singleton rfl)).append (writes_word _)

end Input

namespace Output

def fields (output : Output) : List Field := [amount output.value] ++ [.varBytes output.script]

theorem writes_fields (output : Output) : Writes output.fields output.encode :=
  (writes_amount _).append (writes_singleton rfl)

end Output

namespace Transaction

variable (tx : Transaction)

/-- The fields of a transaction, in the order in which they are written. -/
def fields : List Field :=
  [word tx.version] ++
    ([count tx.inputs.length] ++ tx.inputs.flatMap Input.fields) ++
    ([count tx.outputs.length] ++ tx.outputs.flatMap Output.fields) ++
    [word tx.lockTime]

/-- What is written for a transaction; a number of things is only as large as a size can be. -/
def written : Bytes :=
  encodeWord tx.version ++
    (CompactSize.encode (tx.inputs.length % 2 ^ 64) ++ tx.inputs.flatMap Input.encode) ++
    (CompactSize.encode (tx.outputs.length % 2 ^ 64) ++ tx.outputs.flatMap Output.encode) ++
    encodeWord tx.lockTime

/-- **The fields of a transaction are written**, whatever it holds. -/
theorem writes_fields : Writes tx.fields tx.written := by
  have hinputs := (writes_count tx.inputs.length).append
    (writes_flatMap Input.writes_fields tx.inputs)
  have houtputs := (writes_count tx.outputs.length).append
    (writes_flatMap Output.writes_fields tx.outputs)
  exact (((writes_word _).append hinputs).append houtputs).append (writes_word _)

variable {tx} in
theorem written_eq (hin : tx.inputs.length < 2 ^ 64) (hout : tx.outputs.length < 2 ^ 64) :
    tx.written = tx.encode := by
  rw [written, encode, Nat.mod_eq_of_lt hin, Nat.mod_eq_of_lt hout]

end Transaction

end SpendScript
