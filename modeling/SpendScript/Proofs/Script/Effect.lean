import SpendScript.Proofs.Script.Outcome

/-!
# Operations on listed stacks

On a stack that is given by its items the actions are rewrites of a list, and an operation either
takes its items from the list or does not succeed.

* `Action.apply_takeTop_cons`, `Action.apply_number` and the other actions on listed stacks;
* `truthItem`: the item of a truth value;
* **`Operation.stackAfter_equalVerify`**, **`Operation.stackAfter_checkSig`**: one equation for each
  operation of a payment to a key hash.
-/

namespace SpendScript

open Stack

namespace Action

variable {items : List Bytes} {item : Bytes} (log : Log) (ints : Ints)

theorem apply_viewTop_cons (h : Placed (item :: items)) :
    viewTop.apply ⟨ofItems (item :: items), log, ints⟩ =
      (.ok item.toByteArray, ⟨ofItems (item :: items), log, ints⟩) := by
  rw [viewTop, apply_inspect, top_ofItems_cons h]

@[simp] theorem apply_top_cons (h : Placed (item :: items)) :
    top.apply ⟨ofItems (item :: items), log, ints⟩ =
      (.ok item, ⟨ofItems (item :: items), log, ints⟩) := by
  rw [top, apply_bind, apply_viewTop_cons log ints h]
  simp only [apply_pure, Bytes.ofArray_toByteArray]

theorem apply_view (h : Fits items) (position : Nat) :
    (view position).apply ⟨ofItems items, log, ints⟩ =
      (items[position]?.elim (.error (.fault (.noItem position))) fun item => .ok item.toByteArray,
        ⟨ofItems items, log, ints⟩) := by
  rw [view, apply_inspect, peek_ofItems h]

theorem apply_peek (h : Fits items) (position : Nat) :
    (peek position).apply ⟨ofItems items, log, ints⟩ =
      (items[position]?.elim (.error (.fault (.noItem position))) .ok,
        ⟨ofItems items, log, ints⟩) := by
  rw [peek, apply_bind, apply_view log ints h]
  cases items[position]? with
  | none => rfl
  | some item => simp [Bytes.ofArray_toByteArray]

theorem apply_number (h : Fits items) (position : Nat) :
    (number position).apply ⟨ofItems items, log, ints⟩ =
      ((items[position]?.elim (.error (.noItem position)) ScriptNumber.operand).mapError .fault,
        ⟨ofItems items, log, ints⟩) := by
  rw [number, apply_inspect, Stack.number, peek_ofItems h]
  cases items[position]? with
  | none => rfl
  | some item =>
    change (Except.mapError Interruption.fault
      (ScriptNumber.operand (Bytes.ofArray item.toByteArray)), _) = _
    rw [Bytes.ofArray_toByteArray]
    rfl

/-- Removing no more items than there are. -/
theorem apply_pop_of_le (h : Fits items) {count : Nat} (hcount : 0 < count)
    (hle : count ≤ items.length) : (pop count).apply ⟨ofItems items, log, ints⟩ =
      (.ok (), ⟨ofItems (items.drop count), log, ints⟩) := by
  rw [apply_pop_ofItems (h.placed.length_flatten_drop_lt hcount), size_ofItems h.count,
    if_neg (by omega)]

@[simp] theorem apply_push (h : Fits (item :: items)) :
    (push item).apply ⟨ofItems items, log, ints⟩ =
      (.ok (), ⟨ofItems (item :: items), log, ints⟩) := by
  rw [push, apply_append, append_ofItems, (appendInts_eq_exact item).mpr h, Ints.and_exact]

@[simp] theorem apply_takeTop_nil : takeTop.apply ⟨ofItems [], log, ints⟩ =
    (.error (.fault .topOfEmpty), ⟨ofItems [], log, ints⟩) := rfl

@[simp] theorem apply_takeTop_cons (h : Fits (item :: items)) :
    takeTop.apply ⟨ofItems (item :: items), log, ints⟩ =
      (.ok item, ⟨ofItems items, log, ints⟩) := by
  have hpop : (pop 1).apply ⟨ofItems (item :: items), log, ints⟩ =
      (.ok (), ⟨ofItems items, log, ints⟩) :=
    apply_pop_of_le log ints h Nat.one_pos (Nat.le_add_left 1 _)
  rw [takeTop, apply_bind, apply_top_cons log ints h.placed]
  simp only [apply_bind, hpop, apply_pure]

@[simp] theorem apply_takeTruth_cons (h : Fits (item :: items)) :
    takeTruth.apply ⟨ofItems (item :: items), log, ints⟩ =
      (.ok (ScriptNumber.isTruthy item), ⟨ofItems items, log, ints⟩) := by
  rw [takeTruth, apply_bind, apply_takeTop_cons log ints h]
  rfl

end Action

/-! ## Truth values -/

/-- The item of a truth value. -/
def truthItem (flag : Bool) : Bytes := if flag then ScriptNumber.encode 1 else []

@[simp] theorem isTruthy_truthItem (flag : Bool) :
    ScriptNumber.isTruthy (truthItem flag) = flag := by
  cases flag <;> decide

theorem length_truthItem_lt (flag : Bool) : (truthItem flag).length < 2 ^ 31 := by
  cases flag <;> decide

@[simp] theorem Action.apply_pushBool {flag : Bool} {items : List Bytes}
    (h : Fits (truthItem flag :: items)) (log : Log) (ints : Ints) :
    (pushBool flag).apply ⟨ofItems items, log, ints⟩ =
      (.ok (), ⟨ofItems (truthItem flag :: items), log, ints⟩) :=
  apply_push log ints h

theorem Program.finish_ofItems_cons {item : Bytes} {items : List Bytes} (h : Fits (item :: items)) :
    (finish (ofItems (item :: items))).1 = .ok (ScriptNumber.isTruthy item) := by
  rw [finish, Machine.on, Action.apply_takeTruth_cons [] .exact h]

/-! ## Operations -/

namespace Opcode

variable (log : Log) (ints : Ints)

/-- The two topmost items are taken, and whether they are the same is left. -/
theorem apply_runEqual {b a : Bytes} {below : List Bytes} (h : Fits (b :: a :: below)) :
    runEqual.apply ⟨ofItems (b :: a :: below), log, ints⟩ =
      (.ok (), ⟨ofItems (truthItem (a == b) :: below), log, ints⟩) := by
  have hlower : (Action.peek 1).apply ⟨ofItems (b :: a :: below), log, ints⟩ =
      (.ok a, ⟨ofItems (b :: a :: below), log, ints⟩) := Action.apply_peek log ints h 1
  have hupper : (Action.peek 0).apply ⟨ofItems (b :: a :: below), log, ints⟩ =
      (.ok b, ⟨ofItems (b :: a :: below), log, ints⟩) := Action.apply_peek log ints h 0
  have hpop : (Action.pop 2).apply ⟨ofItems (b :: a :: below), log, ints⟩ =
      (.ok (), ⟨ofItems below, log, ints⟩) :=
    Action.apply_pop_of_le log ints h Nat.two_pos (Nat.le_add_left 2 _)
  have hpush := Action.apply_pushBool (h.tail.replace (length_truthItem_lt (a == b))) log ints
  simp only [runEqual, Action.apply_bind, hlower, hupper, hpop, hpush]

theorem apply_runEqual_short {items : List Bytes} (h : items.length < 2) :
    runEqual.apply ⟨ofItems items, log, ints⟩ =
      (.error (.fault (.noItem 1)), ⟨ofItems items, log, ints⟩) := by
  have hpeek : (ofItems items).peek 1 = .error (.fault (.noItem 1)) := by
    have hsize := toInt_size_le (ofItems items)
    rw [size_spans_ofItems] at hsize
    exact if_pos (Or.inr (by omega))
  rw [runEqual, Action.apply_bind, Action.peek, Action.apply_bind, Action.view,
    Action.apply_inspect, hpeek]

end Opcode

namespace Operation

variable (env : Environment) {items : List Bytes}

theorem stackAfter_push (data : Bytes) (s : Stack) :
    (push data).stackAfter env s = some (s.push data) := rfl

theorem stackAfter_unspendable (s : Stack) : (code .unspendable).stackAfter env s = none := rfl

theorem stackAfter_dup (h : Fits items) :
    (code (.shuffle .dup)).stackAfter env (ofItems items) =
      items.head?.map fun item => ofItems (item :: items) := by
  cases items with
  | nil => rfl
  | cons item below =>
    have hview := Action.apply_viewTop_cons [] .exact h.placed
    simp [stackAfter, run, Opcode.run, Shuffle.run, Machine.on, hview]

/-- The two topmost items are copied. -/
theorem stackAfter_dupTwo {b a : Bytes} (h : Fits (b :: a :: items)) :
    (code (.shuffle .dupTwo)).stackAfter env (ofItems (b :: a :: items)) =
      some (ofItems (b :: a :: b :: a :: items)) := by
  have hlower : (Action.view 1).apply ⟨ofItems (b :: a :: items), [], .exact⟩ =
      (.ok a.toByteArray, ⟨ofItems (b :: a :: items), [], .exact⟩) :=
    Action.apply_view [] .exact h 1
  have hupper : (Action.view 0).apply ⟨ofItems (b :: a :: items), [], .exact⟩ =
      (.ok b.toByteArray, ⟨ofItems (b :: a :: items), [], .exact⟩) :=
    Action.apply_view [] .exact h 0
  have hitems : ((ofItems (b :: a :: items)).append a.toByteArray).append b.toByteArray =
      ofItems (b :: a :: b :: a :: items) := rfl
  simp only [stackAfter, run, Opcode.run, Shuffle.run, Machine.on, Action.apply_bind, hlower,
    hupper, Action.apply_append, Action.apply_pure, hitems]

theorem stackAfter_digest (h : Fits items) (f : DigestFunction) :
    (code (.digest f)).stackAfter env (ofItems items) =
      items.head?.map fun item => ofItems (env.digest f item :: items.tail) := by
  cases items with
  | nil => rfl
  | cons item below =>
    have htop := Action.apply_top_cons [] .exact h.placed
    have hpop : (Action.pop 1).apply ⟨ofItems (item :: below), [], .exact⟩ =
        (.ok (), ⟨ofItems below, [], .exact⟩) :=
      Action.apply_pop_of_le [] .exact h Nat.one_pos (Nat.le_add_left 1 _)
    simp [stackAfter, run, Opcode.run, Machine.on, htop, hpop, Action.push]

/-- **The two topmost items are taken**, and they have to be the same. -/
theorem stackAfter_equalVerify (h : Fits items) :
    (code .equalVerify).stackAfter env (ofItems items) =
      match items with
      | b :: a :: below => if a = b then some (ofItems below) else none
      | _ => none := by
  match items with
  | [] | [_] =>
    simp [stackAfter, run, Opcode.run, Machine.on, Opcode.apply_runEqual_short]
  | b :: a :: below =>
    have htruth := Action.apply_takeTruth_cons [] .exact
      (h.tail.replace (length_truthItem_lt (a == b)))
    have hrun : ((code .equalVerify).run env).apply (.on (ofItems (b :: a :: below))) =
        (.ok (a == b), ⟨ofItems below, [], .exact⟩) := by
      simp [run, Opcode.run, Machine.on, Opcode.apply_runEqual [] .exact h, htruth]
    rw [stackAfter, hrun]
    by_cases hab : a = b <;> simp [hab]

/-- **The two topmost items are taken**, and the answer for them is left. -/
theorem stackAfter_checkSig {signature key : Bytes} (h : Fits (key :: signature :: items))
    {answer : Bool} {log : Log} (hcheck : env.check signature key = .ok (answer, log)) :
    (code .checkSig).stackAfter env (ofItems (key :: signature :: items)) =
      some (ofItems (truthItem answer :: items)) := by
  have hkey := Action.apply_takeTop_cons [] .exact h
  have hsignature := Action.apply_takeTop_cons [] .exact h.tail
  have hpush (log : Log) := Action.apply_pushBool
    (h.tail.replace (length_truthItem_lt answer)) log .exact
  simp [stackAfter, run, Opcode.run, Opcode.runCheckSig, Machine.on, hkey, hsignature, hcheck,
    hpush]

theorem stackAfter_checkSig_short (hlength : items.length < 2) (h : Fits items) :
    (code .checkSig).stackAfter env (ofItems items) = none := by
  match items with
  | [] => rfl
  | [item] =>
    have htake := Action.apply_takeTop_cons [] .exact h
    simp [stackAfter, run, Opcode.run, Opcode.runCheckSig, Machine.on, htake]

end Operation

end SpendScript
