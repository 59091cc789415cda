import SpendScript.Proofs.Script.Grammar
import SpendScript.Proofs.Script.Outcome
import SpendScript.Proofs.Script.Words
import SpendScript.Script.Assembler
import SpendScript.Wire.IntType

/-!
# Assembled scripts

A script put together from data, numbers and opcodes is read as one operation for each piece, in
order, and each operation does what its piece says. It does not matter where between two pieces the
unlocking script ends and the locking script begins.

* `Operation.Pushes`, `Piece.Sound`, `Piece.Means`: what pieces say;
* `Assembly.apply_data`, `Assembly.apply_data_of_lt`: data is written whole or not at all;
* `Piece.exists_operation`: one piece; `Piece.exists_operations`: any pieces;
* **`Program.parse_assembled`**: the program of an assembled script.
-/

namespace SpendScript

/-! ## What pieces say -/

/-- The operation succeeds on every stack and pushes `data`, and nothing else. -/
def Operation.Pushes (op : Operation) (data : Bytes) : Prop :=
  ∀ env m, (op.run env).apply m = (.ok true, ((Action.push data).apply m).2) ∧
    ((Action.push data).apply m).2.stack = m.stack.push data

namespace Piece

/-- Data that can be announced, numbers of 32 bits and opcodes that the catalog knows. -/
def Sound : Piece → Prop
  | .data bytes => bytes.length ≤ 75
  | .number v => IntType.i32.Holds v
  | .opcode byte => Catalog.standard.contains byte = true
  | .raw _ => False

/-- The operation does what the piece says. A number is pushed in its shortest form, in which it can
be an operand unless it is the least one. -/
def Means : Piece → Operation → Prop
  | .data bytes, op => op.Pushes bytes
  | .number v, op =>
    op.Pushes (ScriptNumber.encode v) ∧
      (-2 ^ 31 < v → ScriptNumber.operand (ScriptNumber.encode v) = .ok v)
  | .opcode byte, op =>
    ∃ code : Opcode, op = .code code ∧ code.byte = byte ∧
      Catalog.standard.lookup byte = some code.name
  | .raw _, _ => False

end Piece

theorem Operation.pushes_push (data : Bytes) : (push data).Pushes data :=
  fun _ _ => ⟨rfl, rfl⟩

theorem Operation.pushes_immediate (v : Immediate) :
    (code (.immediate v)).Pushes (ScriptNumber.encode v.val) := fun _ _ => ⟨rfl, rfl⟩

/-! ## Writing -/

namespace Assembly

variable (script : Bytes)

@[simp] theorem apply_append (bytes : Bytes) :
    (append bytes).apply script = (.ok (), script ++ bytes) := rfl

theorem apply_bind_of_ok {α β : Type} {x : Assembly α} {f : α → Assembly β} {a : α}
    {script script' : Bytes} (h : x.apply script = (.ok a, script')) :
    (x >>= f).apply script = (f a).apply script' := Stateful.apply_bind_of_ok h

theorem apply_data_nil : (data []).apply script = (.ok (), script ++ [0]) := rfl

theorem apply_data {bytes : Bytes} (hpos : 1 ≤ bytes.length) (hle : bytes.length ≤ 75) :
    (data bytes).apply script = (.ok (), script ++ UInt8.ofNat bytes.length :: bytes) := by
  have hne : bytes.isEmpty = false := by
    rw [List.isEmpty_eq_false_iff, ← List.length_pos_iff]
    exact hpos
  rw [data, hne, if_neg Bool.false_ne_true, if_pos hle, apply_bind_of_ok (apply_append script _),
    apply_append, List.append_assoc]
  rfl

/-- Data that is too long is refused, and nothing of it is written. -/
theorem apply_data_of_lt {bytes : Bytes} (h : 75 < bytes.length) :
    (data bytes).apply script = (.error ⟨bytes.length⟩, script) := by
  have hne : bytes.isEmpty = false := by
    rw [List.isEmpty_eq_false_iff, ← List.length_pos_iff]
    omega
  rw [data, hne, if_neg Bool.false_ne_true, if_neg (by omega)]
  rfl

end Assembly

namespace Piece

open Assembly Operation

/-- The item of a number of 32 bits can be announced. -/
theorem length_encode_le {v : Int} (h : IntType.i32.Holds v) :
    (ScriptNumber.encode v).length ≤ 5 := by
  rw [ScriptNumber.length_encode_le_iff]
  have hmin : -2147483648 ≤ v := h.1
  have hmax : v ≤ 2147483647 := h.2
  omega

/-- A number is written as its own opcode or as a push, and both push its item. -/
theorem exists_operation_number {v : Int} (h : IntType.i32.Holds v) :
    ∃ op : Operation, op.InScript ∧ op.Pushes (ScriptNumber.encode v) ∧
      ∀ script, (Assembly.number v).apply script = (.ok (), script ++ op.bytes) := by
  cases himmediate : Immediate.ofInt? v with
  | some immediate =>
    have hval : immediate.val = v := by
      rw [Immediate.ofInt?] at himmediate
      split at himmediate <;> cases himmediate
      rfl
    refine ⟨.code (.immediate immediate), trivial, hval ▸ pushes_immediate immediate, ?_⟩
    intro script
    rw [Assembly.number, himmediate]
    rfl
  | none =>
    have hne : v ≠ 0 := by
      rintro rfl
      cases himmediate
    have hpos : 1 ≤ (ScriptNumber.encode v).length :=
      List.length_pos_iff.mpr (ScriptNumber.encode_ne_nil hne)
    have hle : (ScriptNumber.encode v).length ≤ 75 := Nat.le_trans (length_encode_le h) (by decide)
    refine ⟨.push (ScriptNumber.encode v), ⟨hpos, hle⟩, pushes_push _, fun script => ?_⟩
    rw [Assembly.number, himmediate]
    exact apply_data script hpos hle

/-- **One piece** is written as the bytes of an operation that does what the piece says. -/
theorem exists_operation {piece : Piece} (h : piece.Sound) :
    ∃ op : Operation, op.InScript ∧ piece.Means op ∧
      ∀ script, piece.write.apply script = (.ok (), script ++ op.bytes) := by
  cases piece with
  | data bytes =>
    by_cases hnil : bytes = []
    · subst hnil
      exact ⟨.code (.immediate ⟨0, by decide⟩), trivial, pushes_immediate _, apply_data_nil⟩
    · have hpos : 1 ≤ bytes.length := List.length_pos_iff.mpr hnil
      exact ⟨.push bytes, ⟨hpos, h⟩, pushes_push bytes, fun script => apply_data script hpos h⟩
  | number v =>
    obtain ⟨op, hin, hpushes, hwrite⟩ := exists_operation_number h
    refine ⟨op, hin, ⟨hpushes, fun hlt => ?_⟩, hwrite⟩
    have hmax : v ≤ 2147483647 := h.2
    exact ScriptNumber.operand_encode (by omega)
  | opcode byte =>
    obtain ⟨code, hcode⟩ : ∃ code, Opcode.ofByte? byte = some code := by
      rw [← Option.ne_none_iff_exists', Ne, ← Catalog.contains_standard_eq_false_iff]
      simpa [Sound] using h
    obtain rfl := Opcode.ofByte?_eq_some_iff.mp hcode
    exact ⟨.code code, trivial, ⟨code, rfl, rfl, Catalog.lookup_standard_byte code⟩, fun _ => rfl⟩
  | raw byte => exact h.elim

/-- **Any pieces** are written as the bytes of operations that do what they say. -/
theorem exists_operations {pieces : List Piece} (h : ∀ piece ∈ pieces, piece.Sound) :
    ∃ ops : List Operation, (∀ op ∈ ops, op.InScript) ∧ List.Forall₂ Means pieces ops ∧
      ∀ script, (writeAll pieces).apply script = (.ok (), script ++ bytesOf ops) := by
  induction pieces with
  | nil => exact ⟨[], by simp, .nil, fun script => by rw [bytesOf_nil, List.append_nil]; rfl⟩
  | cons piece pieces ih =>
    obtain ⟨hpiece, hpieces⟩ := List.forall_mem_cons.mp h
    obtain ⟨op, hin, hmeans, hwrite⟩ := exists_operation hpiece
    obtain ⟨ops, hins, hmeanss, hwrites⟩ := ih hpieces
    refine ⟨op :: ops, List.forall_mem_cons.mpr ⟨hin, hins⟩, .cons hmeans hmeanss, fun script => ?_⟩
    rw [writeAll, apply_bind_of_ok (hwrite script), hwrites, bytesOf_cons, List.append_assoc]

end Piece

/-! ## The program -/

namespace Program

/-- **The program of an assembled script.** Wherever between two pieces the script is cut in two, it
is read as one operation for each piece, in order, and each does what its piece says. Data of more
than 75 bytes is refused as an invalid argument, and the script stays as it is. -/
theorem parse_assembled (p : Primitives) :
    (∀ a b : List Piece, (∀ piece ∈ a ++ b, piece.Sound) →
      ∃ u l program, (Piece.writeAll a).apply [] = (.ok (), u) ∧
        (Piece.writeAll b).apply u = (.ok (), u ++ l) ∧
        parse p u l = .ok program ∧ List.Forall₂ Piece.Means (a ++ b) program.operations) ∧
    ∀ (script bytes : Bytes), 75 < bytes.length →
      ∃ e, (Piece.data bytes).write.apply script = (.error e, script) ∧
        e.failure.kind = .invalidArgument := by
  constructor
  · intro a b h
    obtain ⟨ha, hb⟩ := List.forall_mem_append.mp h
    obtain ⟨opsA, hinA, hmeansA, hwriteA⟩ := Piece.exists_operations ha
    obtain ⟨opsB, hinB, hmeansB, hwriteB⟩ := Piece.exists_operations hb
    have hops : operationsOf (Operation.bytesOf opsA ++ Operation.bytesOf opsB) =
        .ok (opsA ++ opsB) := by
      rw [operationsOf_eq_ok_iff, Operation.bytesOf_append]
      exact ⟨List.forall_mem_append.mpr ⟨hinA, hinB⟩, rfl⟩
    exact ⟨_, _, ⟨opsA ++ opsB, addressOf p (opsA ++ opsB)⟩, hwriteA [], hwriteB _,
      parse_eq_ok_iff.mpr ⟨hops, rfl⟩, List.rel_append hmeansA hmeansB⟩
  · intro script bytes h
    exact ⟨⟨bytes.length⟩, Assembly.apply_data_of_lt script h, rfl⟩

/-- An empty push, a number of two bytes and the opcode that follows them are read from two scripts,
and 76 bytes are refused. -/
theorem parse_assembled_number :
    (∃ u l program, (Piece.writeAll [.data [], .number 1000]).apply [] = (.ok (), u) ∧
      (Piece.writeAll [.opcode 0x87]).apply u = (.ok (), u ++ l) ∧
      parse Primitives.standard u l = .ok program ∧
      List.Forall₂ Piece.Means [.data [], .number 1000, .opcode 0x87] program.operations) ∧
    ∃ e, (Piece.data (List.replicate 76 0)).write.apply [0x51] = (.error e, [0x51]) ∧
      e.failure.kind = .invalidArgument := by
  refine ⟨(parse_assembled _).1 [.data [], .number 1000] [.opcode 0x87] ?_,
    (parse_assembled Primitives.standard).2 _ _ (by decide)⟩
  intro piece hpiece
  simp only [List.cons_append, List.nil_append, List.mem_cons, List.not_mem_nil, or_false] at hpiece
  rcases hpiece with rfl | rfl | rfl
  · exact Nat.zero_le 75
  · change IntType.i32.Holds 1000
    decide
  · change Catalog.standard.contains 0x87 = true
    decide

end Program

end SpendScript
