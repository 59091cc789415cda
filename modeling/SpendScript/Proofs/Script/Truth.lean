import SpendScript.Proofs.Script.Arithmetic

/-!
# Truth is not being zero

Whether an item is true is seen by a scan from its first byte, its number is read from its last. The
two agree on every item, however long and however written: the false items are the forms of zero. So
verification, the test for zero and the test against it tell the same of an item.

* `toNatLE_eq_zero_iff`, `mod_128_eq_zero_iff`: the bytes before the last one, and the last one;
* **`isTruthy_eq_false_iff_decode`**: the false items are the forms of zero;
* `encode_isNonzero`, `encode_isZero`: what the two tests leave;
* `Opcode.Succeeds`, `Opcode.Leaves`: ways that an operation ends;
* **`Opcode.run_truth`**: the three operations, and the numbers that are pushed.
-/

namespace SpendScript

namespace ScriptNumber

open Bytes

/-! ## The forms of zero -/

theorem toNatLE_eq_zero_iff {bs : Bytes} : toNatLE bs = 0 ↔ ∀ b ∈ bs, b = 0 := by
  induction bs with
  | nil => simp
  | cons b bs ih =>
    have hb : b.toNat = 0 ↔ b = 0 := UInt8.toNat_inj (b := 0)
    rw [toNatLE_cons, List.forall_mem_cons, ← ih, ← hb]
    omega

/-- A last byte without magnitude is zero or a lone sign. -/
theorem mod_128_eq_zero_iff (b : UInt8) : b.toNat % 128 = 0 ↔ b = 0 ∨ b = 0x80 := by
  have hzero : b = 0 ↔ b.toNat = 0 := UInt8.toNat_inj.symm
  have hsign : b = 0x80 ↔ b.toNat = 128 := UInt8.toNat_inj.symm
  have hlt := b.toNat_lt
  rw [hzero, hsign]
  omega

/-- **The false items are the forms of zero.** -/
theorem isTruthy_eq_false_iff_decode (bs : Bytes) : isTruthy bs = false ↔ decode bs = 0 := by
  obtain rfl | ⟨low, last, rfl⟩ := bs.eq_nil_or_concat
  · exact iff_of_true rfl rfl
  · have hpow : 256 ^ low.length ≠ 0 := Nat.ne_of_gt (Nat.pow_pos (by decide))
    rw [List.concat_eq_append, ← Int.natAbs_eq_zero, natAbs_decode_concat, Nat.add_eq_zero_iff,
      toNatLE_eq_zero_iff, Nat.mul_eq_zero, or_iff_right hpow, mod_128_eq_zero_iff, isTruthy_concat,
      Bool.or_eq_false_iff, List.any_eq_false, Bool.and_eq_false_iff, bne_eq_false_iff_eq,
      bne_eq_false_iff_eq]
    simp

theorem isTruthy_iff_decode (bs : Bytes) : isTruthy bs = true ↔ decode bs ≠ 0 := by
  rw [← Bool.not_eq_false, isTruthy_eq_false_iff_decode]

theorem isTruthy_encode (v : Int) : isTruthy (encode v) = true ↔ v ≠ 0 := by
  rw [isTruthy_iff_decode, decode_encode]

/-! ## The two tests -/

theorem ite_decode_eq_zero {α : Type} (item : Bytes) (a b : α) :
    (if decode item = 0 then a else b) = if isTruthy item then b else a := by
  simp only [← isTruthy_eq_false_iff_decode]
  cases isTruthy item <;> rfl

/-- The test against zero leaves the truth of its operand. -/
theorem encode_isNonzero (item : Bytes) :
    encode (UnaryFunction.isNonzero.onInt (decode item)) = truthItem (isTruthy item) := by
  rw [UnaryFunction.onInt, ite_decode_eq_zero]
  cases isTruthy item <;> rfl

/-- The test for zero leaves the contrary. -/
theorem encode_isZero (item : Bytes) :
    encode (UnaryFunction.isZero.onInt (decode item)) = truthItem !isTruthy item := by
  rw [UnaryFunction.onInt, ite_decode_eq_zero]
  cases isTruthy item <;> rfl

end ScriptNumber

/-! ## Operations -/

namespace Opcode

open ScriptNumber Stack

variable (env : Environment) (op : Opcode) (m : Machine)

def Succeeds : Prop := ((op.run env).apply m).1 = .ok true

/-- The operation succeeds, logs nothing and leaves the items, bottom first. -/
def Leaves (items : List Bytes) : Prop :=
  ∃ s, (op.run env).apply m = (.ok true, { m with stack := s }) ∧ s.Holds items

variable {env op} {s : Stack} {log : Log} {ints : Ints}

theorem leaves_concat_iff {item : Bytes} {below : List Bytes} {flag : Bool}
    (hfits : Fits (truthItem flag :: below.reverse))
    (h : (op.run env).apply ⟨s, log, ints⟩ =
      (.ok true, ⟨ofItems (truthItem flag :: below.reverse), log, ints⟩)) :
    op.Leaves env ⟨s, log, ints⟩ (below ++ [item]) ↔ truthItem flag = item := by
  constructor
  · rintro ⟨s', hrun, hitems⟩
    rw [h] at hrun
    cases hrun
    obtain ⟨heq, hitem⟩ := hitems.concat
    exact (List.cons.inj (ofItems_inj hitem.placed heq)).1
  · rintro rfl
    exact ⟨_, h, holds_concat hfits⟩

theorem truthItem_eq_one_iff {flag : Bool} : truthItem flag = [0x01] ↔ flag = true := by
  cases flag <;> decide

theorem truthItem_eq_nil_iff {flag : Bool} : truthItem flag = [] ↔ flag = false := by
  cases flag <;> decide

/-- **Truth is not being zero.** The false items are those whose sign and magnitude are the number
zero. So on a stack whose topmost item can be an operand, verification succeeds exactly if the test
against zero leaves a one, and exactly if the test for zero leaves the empty item; otherwise the
items are exchanged. What is pushed for a value of an integer type is true unless the value is
zero. -/
theorem run_truth (env : Environment) (s : Stack) (log : Log) (ints : Ints) :
    (∀ bs, isTruthy bs = false ↔ signMagnitude bs = 0) ∧
    (∀ below item, s.Holds (below ++ [item]) → item.length ≤ 4 →
      (verify.Succeeds env ⟨s, log, ints⟩ ↔ signMagnitude item ≠ 0) ∧
      (verify.Succeeds env ⟨s, log, ints⟩ ↔
        (unary .isNonzero).Leaves env ⟨s, log, ints⟩ (below ++ [[0x01]])) ∧
      (verify.Succeeds env ⟨s, log, ints⟩ ↔
        (unary .isZero).Leaves env ⟨s, log, ints⟩ (below ++ [[]])) ∧
      (¬ verify.Succeeds env ⟨s, log, ints⟩ ↔
        (unary .isNonzero).Leaves env ⟨s, log, ints⟩ (below ++ [[]])) ∧
      (¬ verify.Succeeds env ⟨s, log, ints⟩ ↔
        (unary .isZero).Leaves env ⟨s, log, ints⟩ (below ++ [[0x01]]))) ∧
    (∀ (t : IntType) (v : t.Value), ∃ item, encodeAs t v = some item ∧
      ((Action.pushInt v.val).apply ⟨s, log, ints⟩).1 = .ok () ∧
      ((Action.pushInt v.val).apply ⟨s, log, ints⟩).2.stack = s.push item ∧
      (isTruthy item = true ↔ v.val ≠ 0)) := by
  simp only [← decode_eq_signMagnitude]
  refine ⟨isTruthy_eq_false_iff_decode, fun below item hs hitem => ?_, fun t v => ?_⟩
  · obtain ⟨rfl, hfits⟩ := hs.concat
    have hverify : verify.Succeeds env ⟨ofItems (item :: below.reverse), log, ints⟩ ↔
        isTruthy item = true := by
      rw [Succeeds, run, Action.apply_takeTruth_cons log ints hfits, Except.ok.injEq]
    have hflag (flag : Bool) : Fits (truthItem flag :: below.reverse) :=
      hfits.replace (length_truthItem_lt flag)
    have hnonzero := apply_unary env log ints .isNonzero hfits hitem
    have hzero := apply_unary env log ints .isZero hfits hitem
    rw [encode_isNonzero] at hnonzero
    rw [encode_isZero] at hzero
    rw [leaves_concat_iff (hflag _) hnonzero, leaves_concat_iff (hflag _) hnonzero,
      leaves_concat_iff (hflag _) hzero, leaves_concat_iff (hflag _) hzero, hverify,
      truthItem_eq_one_iff, truthItem_eq_one_iff, truthItem_eq_nil_iff, truthItem_eq_nil_iff,
      ← isTruthy_iff_decode]
    simp
  · exact ⟨encode v.val, encodeAs_eq v, rfl, rfl, isTruthy_encode v.val⟩

/-- Zeros below a lone sign are zero: verification fails, and the test for zero leaves a one. -/
theorem run_truth_negative_zero :
    let env : Environment := ⟨fun _ item => item, fun _ _ => .ok (false, [])⟩
    let m : Machine := .on (ofItems [[0x00, 0x00, 0x80], [7]])
    ¬ verify.Succeeds env m ∧ (unary .isZero).Leaves env m [[7], [0x01]] := by
  intro env m
  have hfits : Fits [[0x00, 0x00, 0x80], [7]] := ⟨⟨by decide, by decide⟩, by decide⟩
  obtain ⟨hnumber, -, -, -, hzero⟩ := (run_truth env m.stack [] .exact).2.1 [[7]] [0x00, 0x00, 0x80]
    (holds_ofItems hfits) (by decide)
  have hfails := mt hnumber.mp (by decide)
  exact ⟨hfails, hzero.mp hfails⟩

end Opcode

end SpendScript
