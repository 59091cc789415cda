import Mathlib.Algebra.Group.Int.Defs
import SpendScript.Proofs.Script.Effect
import SpendScript.Proofs.Script.Units

/-!
# Stacks that ints cannot measure

Nothing bounds the bytes on a stack, but the ints that it is kept by are made of their number. Where
`2 ^ 31` bytes lie below the topmost item, the int of where they end is negative: to remove the
topmost item the buffer would have to be cut to a negative length. This is no fault of the script
but an error that ends the run, and a program of one opcode that copies, repeated, gets there.

* **`Stack.trim_dropped_eq_error`**, `Action.apply_pop_eq_error`: one call;
* `Program.runFrom_of_interrupted`: the run ends;
* `Program.copies`, **`Program.stackAfter_copies`**: a program that fills the stack;
* **`Program.runFrom_copies_drop`**: it ends in an error.
-/

namespace SpendScript

open Stack

/-! ## One call -/

/-- **Removing items** that lie on too many bytes: there is no such length of a buffer. -/
theorem Stack.trim_dropped_eq_error {items : List Bytes} {count : Nat}
    (h : 2 ^ 31 ≤ (items.drop count).flatten.length)
    (hlt : (items.drop count).flatten.length < 2 ^ 32) :
    (dropped items count).trim =
      .error (.badLength ((items.drop count).flatten.length - 2 ^ 32)) := by
  have hstop : (dropped items count).stop.toInt =
      (items.drop count).flatten.length - 2 ^ 32 := by
    rw [stop_eq_ofNat (toList_spans_dropped count), Int32.toInt_ofNat', Int.bmod_def, Int32.size]
    omega
  rw [trim, hstop, if_pos (by omega)]

theorem Action.apply_pop_eq_error {items : List Bytes} {count : Nat}
    (hcount : (count : Int) ≤ (ofItems items).size.toInt)
    (h : 2 ^ 31 ≤ (items.drop count).flatten.length)
    (hlt : (items.drop count).flatten.length < 2 ^ 32) (m : Machine)
    (hm : m.stack = ofItems items) :
    ((pop count).apply m).1 =
      .error (.access (.badLength ((items.drop count).flatten.length - 2 ^ 32))) := by
  rw [apply_pop, hm, drop_ofItems, if_neg (Int.not_lt.mpr hcount)]
  simp only [trim_dropped_eq_error h hlt]

namespace Program

variable {α : Type} (env : Environment) (observe : Step → α)

/-- **An error from outside the script ends the run**; the operations before it have been shown. -/
theorem runFrom_of_interrupted {before : List Operation} {op : Operation} {s s' : Stack}
    {e : AccessError} (hbefore : stackAfter env before s = some s')
    (hop : ((op.run env).apply (.on s')).1 = .error (.access e)) (index : Nat)
    (after : List Operation) :
    let run := runFrom env observe index (before ++ op :: after) s
    run.verdict = .error e ∧ run.observations.length = before.length := by
  obtain ⟨shown, log, ints, hlength, hrun⟩ :=
    runFrom_append env observe hbefore index (op :: after)
  have herror : (op.attempt env (index + before.length) s').1 = .error e := by
    rw [op.attempt_fst, hop]
    rfl
  rw [hrun, runFrom]
  rcases hattempt : op.attempt env (index + before.length) s' with ⟨e' | ok, m⟩ <;>
    rw [hattempt] at herror <;> cases herror
  exact ⟨rfl, (congrArg List.length (List.append_nil shown)).trans hlength⟩

/-! ## A program that fills the stack -/

/-- Pushes an item twice and then copies the two topmost items `count` times. -/
def copies (item : Bytes) (count : Nat) : List Operation :=
  .push item :: .push item :: List.replicate count (.code (.shuffle .dupTwo))

variable {item : Bytes} {count : Nat}

@[simp] theorem length_copies : (copies item count).length = count + 2 := by simp [copies]

theorem inScript_copies (h : Operation.InScript (.push item)) :
    ∀ op ∈ copies item count, op.InScript := by
  intro op hop
  simp only [copies, List.mem_cons, List.mem_replicate] at hop
  obtain rfl | rfl | ⟨-, rfl⟩ := hop
  · exact h
  · exact h
  · trivial

theorem bytesOf_copies : Operation.bytesOf (copies item count) =
    (Operation.push item).bytes ++ ((Operation.push item).bytes ++ List.replicate count 0x6e) := by
  have hdup : (Operation.code (.shuffle .dupTwo)).bytes = [0x6e] := by decide
  rw [copies, Operation.bytesOf_cons, Operation.bytesOf_cons, Operation.bytesOf,
    List.flatMap_replicate, hdup, List.flatten_replicate_singleton]

theorem length_flatten_replicate (n : Nat) :
    (List.replicate n item).flatten.length = n * item.length := by
  rw [List.length_flatten, List.map_replicate, List.sum_replicate_nat]

theorem fits_replicate {n : Nat} (hcount : n < 2 ^ 31) (hitem : item.length < 2 ^ 31)
    (hbytes : n * item.length < 2 ^ 31 + item.length) : Fits (List.replicate n item) := by
  refine ⟨?_, by rwa [List.length_replicate]⟩
  cases n with
  | zero => exact placed_nil
  | succ n =>
    rw [Nat.succ_mul] at hbytes
    exact ⟨by rw [length_flatten_replicate]; omega, hitem⟩

/-- Pairs of items are copied as long as the last copies begin at places that are exact. -/
theorem stackAfter_replicate_dupTwo (hitem : item.length < 2 ^ 31) (n : Nat)
    (hcount : 2 * n + 2 * count < 2 ^ 31)
    (hbytes : (2 * n + 2 * count) * item.length < 2 ^ 31 + item.length) :
    stackAfter env (List.replicate count (.code (.shuffle .dupTwo)))
        (ofItems (List.replicate (2 * n + 2) item)) =
      some (ofItems (List.replicate (2 * n + 2 * count + 2) item)) := by
  -- on the copies to come; `n` pairs have been copied
  induction count generalizing n with
  | zero => rfl
  | succ count ih =>
    have hle : (2 * n + 2) * item.length ≤ (2 * n + 2 * (count + 1)) * item.length :=
      Nat.mul_le_mul_right _ (by omega)
    have hfits : Fits (List.replicate (2 * n + 2) item) :=
      fits_replicate (by omega) hitem (by omega)
    have hone : (Operation.code (.shuffle .dupTwo)).stackAfter env
        (ofItems (List.replicate (2 * n + 2) item)) =
          some (ofItems (List.replicate (2 * (n + 1) + 2) item)) :=
      Operation.stackAfter_dupTwo env hfits
    have hsum : 2 * (n + 1) + 2 * count = 2 * n + 2 * (count + 1) := by omega
    rw [← hsum] at hcount hbytes ⊢
    rw [List.replicate_succ, stackAfter_cons, hone, Option.bind_some]
    exact ih (n + 1) hcount hbytes

/-- **The stack is filled.** -/
theorem stackAfter_copies (hitem : item.length < 2 ^ 31) (hcount : 2 * count < 2 ^ 31)
    (hbytes : 2 * count * item.length < 2 ^ 31 + item.length) :
    stackAfter env (copies item count) Stack.empty =
      some (ofItems (List.replicate (2 * count + 2) item)) := by
  rw [← Nat.zero_add (2 * count)] at hcount hbytes ⊢
  exact stackAfter_replicate_dupTwo env hitem 0 hcount hbytes

/-- **A program that fills the stack and then removes an item** ends in an error, not in a verdict.
Up to there all operations are shown, and all succeed. -/
theorem runFrom_copies_drop (item : Bytes) (count : Nat) (hitem : item.length ≤ 75)
    (hcount : 2 * count + 2 < 2 ^ 31) (hbytes : 2 * count * item.length < 2 ^ 31 + item.length)
    (hover : 2 ^ 31 ≤ (2 * count + 1) * item.length) (index : Nat) (after : List Operation) :
    let run := runFrom env observe index
      (copies item count ++ .code (.shuffle .drop) :: after) Stack.empty
    run.verdict = .error (.badLength (((2 * count + 1) * item.length : Nat) - 2 ^ 32)) ∧
      run.observations.length = count + 2 := by
  intro run
  let items := List.replicate (2 * count + 2) item
  have hstack : stackAfter env (copies item count) Stack.empty = some (ofItems items) :=
    stackAfter_copies env (by omega) (by omega) hbytes
  have hsize : (ofItems items).size.toInt = (2 * count + 2 : Nat) := by
    rw [size_ofItems (by rwa [List.length_replicate]), List.length_replicate]
  -- what lies below the topmost item wraps around once, into a negative int
  have hbelow : (items.drop 1).flatten.length = (2 * count + 1) * item.length :=
    length_flatten_replicate _
  have hlt : (2 * count + 1) * item.length < 2 ^ 32 := by
    rw [Nat.succ_mul]
    omega
  have hpop : ((Action.pop 1).apply (.on (ofItems items))).1 =
      .error (.access (.badLength ((items.drop 1).flatten.length - 2 ^ 32))) :=
    Action.apply_pop_eq_error (by omega) (by rwa [hbelow]) (by rwa [hbelow]) _ rfl
  have hop : (((Operation.code (.shuffle .drop)).run env).apply (.on (ofItems items))).1 =
      .error (.access (.badLength (((2 * count + 1) * item.length : Nat) - 2 ^ 32))) := by
    rw [hbelow] at hpop
    rw [Operation.run, Opcode.run, Shuffle.run, Action.apply_bind]
    rcases hrun : (Action.pop 1).apply (.on (ofItems items)) with ⟨e | u, m⟩ <;> rw [hrun] at hpop
    · exact congrArg Except.error (Except.error.inj hpop)
    · cases hpop
  obtain ⟨hverdict, hshown⟩ :=
    runFrom_of_interrupted env observe hstack hop index after
  exact ⟨hverdict, hshown.trans length_copies⟩

end Program

end SpendScript
