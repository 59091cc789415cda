import SpendScript.Proofs.Script.Effect
import SpendScript.Proofs.Spend.Verdict
import SpendScript.Proofs.Wire.Fields

/-!
# No error escapes

As long as the stack is not too long for its ints, a run ends in a verdict, whatever the program,
the transaction, the index and the coins. Operations succeed, fail or are at fault. The errors of
accesses by index, of new lengths and of writers do not arise on the way, because each of these is
reached with arguments in range only.

* `SignatureHash.exists_writes`: the covered transaction is made and written;
* `Program.finish_iff`: the end of a run is one more operation;
* `Program.verdict_of_refused`: an operation that does not succeed;
* **`Program.no_error_escapes`**: the run as a whole.
-/

namespace SpendScript

open Writer

/-- **The covered transaction is made and written**: neither an access nor a writer refuses. -/
theorem SignatureHash.exists_writes {tx : Transaction} {n : Nat} {hashType : HashType}
    (code : Bytes) (hn : n < tx.inputs.length)
    (ho : hashType.outputs = .single → n < tx.outputs.length) :
    ∃ copy bytes, cover tx n code hashType = .ok copy ∧
      Writes (copy.fields ++ [.word hashType]) bytes ∧
      (tx.inputs.length < 2 ^ 64 → tx.outputs.length < 2 ^ 64 →
        message tx n code hashType = .ok bytes) := by
  obtain ⟨copy, hcopy, hinputs, houtputs⟩ := exists_cover code hn ho
  refine ⟨copy, copy.written ++ encodeWord hashType, hcopy,
    copy.writes_fields.append (Field.writes_word hashType), fun hin hout => ?_⟩
  rw [message, hcopy, Transaction.written_eq (Nat.lt_of_le_of_lt hinputs hin)
    (Nat.lt_of_le_of_lt houtputs hout)]
  rfl

namespace Program

variable {env : Environment}

/-- The end of a run is one more operation, the check that the topmost item counts as true. -/
theorem finish_iff (s : Stack) :
    (finish s).1 = .ok true ↔ ((Opcode.verify.run env).apply (.on s)).1 = .ok true := by
  obtain ⟨log, hfinish⟩ := finish_eq s
  rw [hfinish]
  exact settle_eq_true_iff

/-- **An operation that does not succeed** decides the verdict. -/
theorem verdict_of_refused {α : Type} {observe : Step → α} {before : List Operation}
    {op : Operation} {s s' : Stack} (index : Nat) (after : List Operation)
    (hbefore : stackAfter env before s = some s')
    (hop : ((op.run env).apply (.on s')).1 ≠ .ok true) :
    (runFrom env observe index (before ++ op :: after) s).verdict =
      settle ((op.run env).apply (.on s')).1 := by
  obtain ⟨shown, log, ints, -, hrun⟩ := runFrom_append env observe hbefore index (op :: after)
  have hsettle := op.attempt_fst env (index + before.length) s'
  rw [hrun, runFrom]
  rcases hattempt : op.attempt env (index + before.length) s' with ⟨e | (_ | _), m⟩ <;>
    rw [hattempt] at hsettle
  · exact hsettle
  · exact hsettle
  · exact absurd (settle_eq_true_iff.mp hsettle.symm) hop

/-- **No error escapes from a run** whose stack has exact places, that is, where no item begins or
ends behind the bytes that an int can count, as is so where all of its items have less than `2 ^
31` bytes. Each operation then, on any stack in which items are laid out, succeeds, fails or is at
one of four faults, so none of its accesses and lengths is refused. The run has a verdict: it
refuses at the first operation that does not succeed, and accepts if all do and the check of the
topmost item then does too. The spent output, the signature hash and the bytes under it are always
found, made and written. -/
theorem no_error_escapes {α : Type} (p : Primitives) (observe : Step → α) (program : Program)
    (tx : Transaction) (index : Int) (coins : Coins) :
    let env := Spend.environment p ⟨tx, index, coins⟩
    let run := program.run env observe
    let Settles (outcome : Except Interruption Bool) : Prop :=
      (∃ ok, outcome = .ok ok) ∨
        ∃ f : Fault, outcome = .error (.fault f) ∧
          f.error ∈ [ScriptError.stackUnderflow, .numberOverflow, .invalidPubkeyCount,
            .invalidSignatureCount]
    (∀ (op : Operation) (m : Machine) items, m.stack.LaidOut items →
      ((op.run env).apply m).2.ints.places = true → Settles ((op.run env).apply m).1) ∧
    (run.ints.places = true →
      (∃ ok, run.verdict = .ok ok) ∧
      (∀ before op after s,
        program.operations = before ++ op :: after → stackAfter env before Stack.empty = some s →
        Settles ((op.run env).apply (.on s)).1 ∧
          (((op.run env).apply (.on s)).1 ≠ .ok true → run.verdict = .ok false)) ∧
      ∀ s, stackAfter env program.operations Stack.empty = some s →
        (run.verdict = .ok true ↔ ((Opcode.verify.run env).apply (.on s)).1 = .ok true)) ∧
    (∃ found, Spend.spentOutput ⟨tx, index, coins⟩ = .ok found) ∧
    (∀ code hashType, ∃ answer, SignatureHash.hash p tx index code hashType = .ok answer) ∧
    (∀ code (hashType : HashType), 0 ≤ index → index < tx.inputs.length →
      (hashType.outputs = .single → index < tx.outputs.length) →
      ∃ copy bytes, SignatureHash.cover tx index code hashType = .ok copy ∧
        Writes (copy.fields ++ [.word hashType]) bytes ∧
        (tx.inputs.length < 2 ^ 64 → tx.outputs.length < 2 ^ 64 →
          SignatureHash.message tx index code hashType = .ok bytes)) := by
  intro env run Settles
  have henv : env.Answers := Spend.answers_environment p _
  have hrun : run = runFrom env observe 0 program.operations Stack.empty :=
    run_eq_runFrom env observe program
  have hone (op : Operation) (m : Machine) (items) (hm : m.stack.LaidOut items)
      (h : ((op.run env).apply m).2.ints.places = true) : Settles ((op.run env).apply m).1 :=
    op.succeeds_or_faults henv hm h
  refine ⟨hone, fun hplaces => ⟨?_, fun before op after s hops hbefore => ?_, fun s hs => ?_⟩,
    ⟨_, Spend.spentOutput_eq _⟩, SignatureHash.exists_hash p tx index,
    fun code hashType hpos hin hout => ?_⟩
  · rw [hrun] at hplaces ⊢
    exact guarded_runFrom Ints.guard_places henv ⟨[], rfl, Stack.placed_nil⟩ hplaces
  · rw [hrun, hops] at hplaces ⊢
    obtain ⟨⟨items, hitems, hplaced⟩, hrest⟩ :=
      guarded_stackAfter Ints.guard_places henv ⟨[], rfl, Stack.placed_nil⟩ hplaces hbefore
    obtain ⟨more, hmore⟩ := exists_ints_runFrom_cons env observe (0 + before.length) op after s
    rw [hmore] at hrest
    have hsettles := hone op (.on s) _ (hitems ▸ Stack.laidOut_ofItems hplaced)
      (Bool.and_eq_true_iff.mp hrest).1
    refine ⟨hsettles, fun hrefused => ?_⟩
    rw [verdict_of_refused 0 after hbefore hrefused]
    obtain ⟨_ | _, hok⟩ | ⟨f, hf, -⟩ := hsettles
    · rw [hok]
      rfl
    · exact absurd hok hrefused
    · rw [hf]
      rfl
  · rw [hrun, verdict_runFrom_eq_true_iff, hs, ← finish_iff]
    exact ⟨fun ⟨s', hs', hfinish⟩ => Option.some.inj hs' ▸ hfinish, fun h => ⟨s, rfl, h⟩⟩
  · obtain ⟨n, rfl⟩ := Int.eq_ofNat_of_zero_le hpos
    exact SignatureHash.exists_writes code (by omega) fun hs => by have := hout hs; omega

/-- Several signatures on too short a stack, for an input before the first: a fault, so refused. -/
theorem no_error_escapes_checkMultiSig :
    (run (Spend.environment Primitives.standard ⟨Transaction.empty, -1, Coins.empty⟩) (fun _ => ())
      ⟨[.push [1], .code .checkMultiSig], ""⟩).verdict = .ok false := by
  have hrun := (no_error_escapes Primitives.standard (fun _ => ())
    ⟨[.push [1], .code .checkMultiSig], ""⟩ Transaction.empty (-1) Coins.empty).2.1 (by decide)
  exact (hrun.2.1 [.push [1]] (.code .checkMultiSig) [] (Stack.ofItems [[1]]) rfl rfl).2 nofun

end Program

end SpendScript
