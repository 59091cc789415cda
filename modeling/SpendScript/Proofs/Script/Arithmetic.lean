import SpendScript.Proofs.Script.Effect
import SpendScript.Proofs.Script.Words

/-!
# Arithmetic

Operands have at most four bytes, so their sums and differences are far from the bounds of the words
of 64 bits in which operations compute, and the results are those of the integers. An operation that
lacks an operand, or finds one that is too long, is at fault before it removes anything.

* `UnaryFunction.onInt`, `BinaryFunction.onInt`: the functions on the integers;
* **`UnaryFunction.toInt_eval`**, **`BinaryFunction.toInt_eval`**: words of 64 bits are enough;
* `natAbs_onInt_le`, `ScriptNumber.IsResult`: how large results are;
* `Action.Refuses`, `apply_run`, `refuses_run_of_lt` and so on: each way that an operation can end;
* **`Opcode.run_arithmetic`**: the operations.
-/

namespace SpendScript

open ScriptNumber Stack

/-! ## Functions on the integers -/

def UnaryFunction.onInt : UnaryFunction → Int → Int
  | .succ, a => a + 1
  | .pred, a => a - 1
  | .negate, a => -a
  | .isZero, a => if a = 0 then 1 else 0
  | .isNonzero, a => if a = 0 then 0 else 1

def BinaryFunction.onInt : BinaryFunction → Int → Int → Int
  | .add, a, b => a + b
  | .sub, a, b => a - b
  | .equal, a, b => if a = b then 1 else 0
  | .less, a, b => if a < b then 1 else 0
  | .greater, a, b => if b < a then 1 else 0
  | .min, a, b => Min.min a b
  | .max, a, b => Max.max a b

theorem toInt_ofInt_of_natAbs_lt {a : Int} (h : a.natAbs < 2 ^ 31) : (Int64.ofInt a).toInt = a :=
  Int64.toInt_ofInt_of_le (by omega) (by omega)

theorem toInt_truthNumber (p : Bool) : (truthNumber p).toInt = if p then 1 else 0 := by
  cases p <;> rfl

/-- **Words of 64 bits are enough** for a function of an operand. -/
theorem UnaryFunction.toInt_eval (f : UnaryFunction) {a : Int} (h : a.natAbs < 2 ^ 31) :
    (f.eval (.ofInt a)).toInt = f.onInt a := by
  have ha := toInt_ofInt_of_natAbs_lt h
  have hone : (1 : Int64).toInt = 1 := rfl
  have hzero : Int64.ofInt a = 0 ↔ a = 0 := by
    rw [← Int64.toInt_inj, ha]
    rfl
  cases f with
  | succ =>
    rw [eval, onInt, Int64.toInt_add, ha, hone]
    exact Int.bmod_eq_of_le (by omega) (by omega)
  | pred =>
    rw [eval, onInt, Int64.toInt_sub, ha, hone]
    exact Int.bmod_eq_of_le (by omega) (by omega)
  | negate =>
    rw [eval, onInt, Int64.toInt_neg, ha]
    exact Int.bmod_eq_of_le (by omega) (by omega)
  | isZero => simp [eval, onInt, toInt_truthNumber, hzero]
  | isNonzero => simp [eval, onInt, toInt_truthNumber, hzero]

/-- **Words of 64 bits are enough** for a function of two operands. -/
theorem BinaryFunction.toInt_eval (f : BinaryFunction) {a b : Int} (h : a.natAbs < 2 ^ 31)
    (h' : b.natAbs < 2 ^ 31) : (f.eval (.ofInt a) (.ofInt b)).toInt = f.onInt a b := by
  have ha := toInt_ofInt_of_natAbs_lt h
  have hb := toInt_ofInt_of_natAbs_lt h'
  have heq : Int64.ofInt a = Int64.ofInt b ↔ a = b := by rw [← Int64.toInt_inj, ha, hb]
  have hlt : Int64.ofInt a < Int64.ofInt b ↔ a < b := by rw [Int64.lt_iff_toInt_lt, ha, hb]
  have hgt : Int64.ofInt b < Int64.ofInt a ↔ b < a := by rw [Int64.lt_iff_toInt_lt, ha, hb]
  cases f with
  | add =>
    rw [eval, onInt, Int64.toInt_add, ha, hb]
    exact Int.bmod_eq_of_le (by omega) (by omega)
  | sub =>
    rw [eval, onInt, Int64.toInt_sub, ha, hb]
    exact Int.bmod_eq_of_le (by omega) (by omega)
  | equal => simp [eval, onInt, toInt_truthNumber, heq]
  | less => simp [eval, onInt, toInt_truthNumber, hlt]
  | greater => simp [eval, onInt, toInt_truthNumber, hgt]
  | min =>
    simp only [eval, onInt, hlt]
    split
    · rw [ha]; omega
    · rw [hb]; omega
  | max =>
    simp only [eval, onInt, hlt]
    split
    · rw [hb]; omega
    · rw [ha]; omega

theorem UnaryFunction.natAbs_onInt_le (f : UnaryFunction) {a : Int} (h : a.natAbs < 2 ^ 31) :
    (f.onInt a).natAbs ≤ 2 ^ 32 - 2 := by
  cases f <;> simp only [onInt] <;> (try split) <;> omega

theorem BinaryFunction.natAbs_onInt_le (f : BinaryFunction) {a b : Int} (h : a.natAbs < 2 ^ 31)
    (h' : b.natAbs < 2 ^ 31) : (f.onInt a b).natAbs ≤ 2 ^ 32 - 2 := by
  cases f <;> simp only [onInt] <;> (try split) <;> omega

namespace ScriptNumber

theorem natAbs_decode_lt {item : Bytes} (h : item.length ≤ 4) : (decode item).natAbs < 2 ^ 31 :=
  (length_encode_le_iff _ 3).mp (Nat.le_trans (length_encode_decode_le item) h)

/-- A number that operands can result in: its item has at most five bytes, and is an operand itself
if the number is below the bound of operands. -/
structure IsResult (r : Int) : Prop where
  natAbs_le : r.natAbs ≤ 2 ^ 32 - 2
  length_le : (encode r).length ≤ 5
  operand_eq : operand (encode r) = if r.natAbs < 2 ^ 31 then .ok r else .error (.numberTooLong 5)

theorem isResult_of_natAbs_le {r : Int} (h : r.natAbs ≤ 2 ^ 32 - 2) : IsResult r := by
  have hlong := (length_encode_le_iff r 4).mpr (by omega)
  refine ⟨h, hlong, ?_⟩
  split
  · next hshort => exact operand_encode hshort
  · next hshort =>
    have hlt := mt (length_encode_le_iff r 3).mp hshort
    have hlength : (encode r).length = 5 := by omega
    rw [ScriptNumber.operand_eq, hlength]
    rfl

end ScriptNumber

/-! ## Operations -/

namespace Action

/-- The action is at fault and leaves everything as it is. -/
def Refuses {α : Type} (x : Action α) (error : ScriptError) (m : Machine) : Prop :=
  ∃ f : Fault, f.error = error ∧ x.apply m = (.error (.fault f), m)

theorem Refuses.bind {α β : Type} {x : Action α} {error : ScriptError} {m : Machine}
    (h : x.Refuses error m) (g : α → Action β) : (x >>= g).Refuses error m := by
  obtain ⟨f, hf, hx⟩ := h
  exact ⟨f, hf, by rw [apply_bind, hx]⟩

theorem Refuses.of_ok {α β : Type} {x : Action α} {g : α → Action β} {a : α}
    {error : ScriptError} {m : Machine} (hx : x.apply m = (.ok a, m)) (h : (g a).Refuses error m) :
    (x >>= g).Refuses error m := by
  obtain ⟨f, hf, hg⟩ := h
  exact ⟨f, hf, by rw [apply_bind, hx]; exact hg⟩

variable {items : List Bytes} {item : Bytes} (log : Log) (ints : Ints) (position : Nat)

theorem apply_number_of_le (h : Fits items) (hitem : items[position]? = some item)
    (hle : item.length ≤ 4) : (number position).apply ⟨ofItems items, log, ints⟩ =
      (.ok (decode item), ⟨ofItems items, log, ints⟩) := by
  rw [apply_number log ints h, hitem, Option.elim_some, operand_eq_ok_iff.mpr ⟨hle, rfl⟩]
  rfl

theorem refuses_number_of_lt (h : Fits items) (hitem : items[position]? = some item)
    (hlt : 4 < item.length) :
    (number position).Refuses .numberOverflow ⟨ofItems items, log, ints⟩ := by
  refine ⟨.numberTooLong item.length, rfl, ?_⟩
  rw [apply_number log ints h, hitem, Option.elim_some, ScriptNumber.operand_eq, if_pos hlt]
  rfl

theorem refuses_number_of_none (h : Fits items) (hitem : items[position]? = none) :
    (number position).Refuses .stackUnderflow ⟨ofItems items, log, ints⟩ := by
  refine ⟨.noItem position, rfl, ?_⟩
  rw [apply_number log ints h, hitem]
  rfl

/-- A result goes where an operand was. -/
theorem apply_pushInt (h : Fits (item :: items)) {v : Int} (hv : IsResult v) :
    (pushInt v).apply ⟨ofItems items, log, ints⟩ =
      (.ok (), ⟨ofItems (encode v :: items), log, ints⟩) :=
  apply_push log ints (h.replace (Nat.lt_of_le_of_lt hv.length_le (by decide)))

end Action

open SpendScript.Action

namespace UnaryFunction

variable (f : UnaryFunction) {item : Bytes} {below : List Bytes} (log : Log) (ints : Ints)

theorem isResult (h : item.length ≤ 4) : IsResult (f.onInt (decode item)) :=
  isResult_of_natAbs_le (f.natAbs_onInt_le (natAbs_decode_lt h))

theorem apply_run (h : Fits (item :: below)) (hle : item.length ≤ 4) :
    f.run.apply ⟨ofItems (item :: below), log, ints⟩ =
      (.ok (), ⟨ofItems (encode (f.onInt (decode item)) :: below), log, ints⟩) := by
  have hnumber : (number 0).apply ⟨ofItems (item :: below), log, ints⟩ =
      (.ok (decode item), ⟨ofItems (item :: below), log, ints⟩) :=
    apply_number_of_le log ints 0 h rfl hle
  have hpop : (pop 1).apply ⟨ofItems (item :: below), log, ints⟩ =
      (.ok (), ⟨ofItems below, log, ints⟩) :=
    apply_pop_of_le log ints h Nat.one_pos (Nat.le_add_left 1 _)
  have hpush := apply_pushInt log ints h (f.isResult hle)
  simp only [run, apply_bind, hnumber, hpop, hpush, f.toInt_eval (natAbs_decode_lt hle)]

theorem refuses_run_of_lt (h : Fits (item :: below)) (hlt : 4 < item.length) :
    f.run.Refuses .numberOverflow ⟨ofItems (item :: below), log, ints⟩ :=
  (refuses_number_of_lt log ints 0 h rfl hlt).bind _

theorem refuses_run_nil : f.run.Refuses .stackUnderflow ⟨ofItems [], log, ints⟩ :=
  (refuses_number_of_none log ints 0 fits_nil rfl).bind _

end UnaryFunction

namespace BinaryFunction

variable (f : BinaryFunction) {a b : Bytes} {below : List Bytes} (log : Log) (ints : Ints)

theorem isResult (ha : a.length ≤ 4) (hb : b.length ≤ 4) :
    IsResult (f.onInt (decode a) (decode b)) :=
  isResult_of_natAbs_le (f.natAbs_onInt_le (natAbs_decode_lt ha) (natAbs_decode_lt hb))

theorem apply_run (h : Fits (b :: a :: below)) (ha : a.length ≤ 4) (hb : b.length ≤ 4) :
    f.run.apply ⟨ofItems (b :: a :: below), log, ints⟩ =
      (.ok (), ⟨ofItems (encode (f.onInt (decode a) (decode b)) :: below), log, ints⟩) := by
  have hlower : (number 1).apply ⟨ofItems (b :: a :: below), log, ints⟩ =
      (.ok (decode a), ⟨ofItems (b :: a :: below), log, ints⟩) :=
    apply_number_of_le log ints 1 h rfl ha
  have hupper : (number 0).apply ⟨ofItems (b :: a :: below), log, ints⟩ =
      (.ok (decode b), ⟨ofItems (b :: a :: below), log, ints⟩) :=
    apply_number_of_le log ints 0 h rfl hb
  have hpop : (pop 2).apply ⟨ofItems (b :: a :: below), log, ints⟩ =
      (.ok (), ⟨ofItems below, log, ints⟩) :=
    apply_pop_of_le log ints h Nat.two_pos (Nat.le_add_left 2 _)
  have hpush := apply_pushInt log ints h.tail (f.isResult ha hb)
  simp only [run, apply_bind, hlower, hupper, hpop, hpush,
    f.toInt_eval (natAbs_decode_lt ha) (natAbs_decode_lt hb)]

/-- The deeper operand is looked at first, but which of the two is too long does not matter. -/
theorem refuses_run_of_lt (h : Fits (b :: a :: below)) (hlt : 4 < a.length ∨ 4 < b.length) :
    f.run.Refuses .numberOverflow ⟨ofItems (b :: a :: below), log, ints⟩ := by
  by_cases ha : 4 < a.length
  · exact (refuses_number_of_lt log ints 1 h rfl ha).bind _
  · have hb := hlt.resolve_left ha
    have hlower := apply_number_of_le log ints 1 h rfl (Nat.not_lt.mp ha)
    exact .of_ok hlower ((refuses_number_of_lt log ints 0 h rfl hb).bind _)

theorem refuses_run_short {items : List Bytes} (h : Fits items) (hlength : items.length < 2) :
    f.run.Refuses .stackUnderflow ⟨ofItems items, log, ints⟩ :=
  (refuses_number_of_none log ints 1 h (List.getElem?_eq_none (by omega))).bind _

end BinaryFunction

namespace Opcode

variable (env : Environment) {a b : Bytes} {below : List Bytes} (log : Log) (ints : Ints)

theorem apply_unary (f : UnaryFunction) (h : Fits (a :: below)) (ha : a.length ≤ 4) :
    ((unary f).run env).apply ⟨ofItems (a :: below), log, ints⟩ =
      (.ok true, ⟨ofItems (encode (f.onInt (decode a)) :: below), log, ints⟩) := by
  simp only [run, apply_bind, f.apply_run log ints h ha, apply_pure]

theorem apply_binary (f : BinaryFunction) (h : Fits (b :: a :: below)) (ha : a.length ≤ 4)
    (hb : b.length ≤ 4) : ((binary f).run env).apply ⟨ofItems (b :: a :: below), log, ints⟩ =
      (.ok true, ⟨ofItems (encode (f.onInt (decode a) (decode b)) :: below), log, ints⟩) := by
  simp only [run, apply_bind, f.apply_run log ints h ha hb, apply_pure]

theorem apply_numEqualVerify (h : Fits (b :: a :: below)) (ha : a.length ≤ 4)
    (hb : b.length ≤ 4) : (numEqualVerify.run env).apply ⟨ofItems (b :: a :: below), log, ints⟩ =
      (.ok (decode a == decode b), ⟨ofItems below, log, ints⟩) := by
  have hresult := BinaryFunction.equal.isResult ha hb
  have htake := apply_takeTruth_cons log ints
    (h.tail.replace (Nat.lt_of_le_of_lt hresult.length_le (by decide)))
  have htruth : isTruthy (encode (BinaryFunction.equal.onInt (decode a) (decode b))) =
      (decode a == decode b) := by
    by_cases heq : decode a = decode b
    · rw [BinaryFunction.onInt, if_pos heq, beq_iff_eq.mpr heq]
      rfl
    · rw [BinaryFunction.onInt, if_neg heq, beq_eq_false_iff_ne.mpr heq]
      rfl
  simp only [run, apply_bind, BinaryFunction.equal.apply_run log ints h ha hb, htake, htruth]

end Opcode

end SpendScript
