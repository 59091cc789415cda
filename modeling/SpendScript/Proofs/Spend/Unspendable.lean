import SpendScript.Proofs.Script.Effect
import SpendScript.Proofs.Spend.Verdict

/-!
# Outputs marked as unspendable

A locking script that begins with 0x6a marks its output as unspendable. The two scripts are read as
one stream, though, so an unlocking script that ends inside a push takes that byte for data.

* `Program.not_accepts_unspendable`: no program goes on behind the mark;
* **`verifyInput_unspendable_iff`**: the spendings that get past the mark;
* `not_forall_unspendable_refused`: an unlocking script of one byte does;
* `verifyInput_unspendable_of_parse`: one that can be read on its own does not.
-/

namespace SpendScript

open Program

theorem Opcode.byte_unspendable : unspendable.byte = 0x6a := by decide

/-- **No program goes on behind the mark.** -/
theorem Program.not_accepts_unspendable (env : Environment) (before after : List Operation) :
    ¬ Accepts env (before ++ .code .unspendable :: after) := by
  rintro ⟨stack, hrun, -⟩
  rw [stackAfter_append] at hrun
  obtain ⟨s, -, hs⟩ := Option.bind_eq_some_iff.mp hrun
  rw [stackAfter_cons, Operation.stackAfter_unspendable] at hs
  cases hs

/-- The operations of a script that begins with the mark. -/
theorem Operation.exists_of_bytesOf_unspendable {ops : List Operation}
    (hin : ∀ op ∈ ops, op.InScript) (h : (bytesOf ops).head? = some 0x6a) :
    ∃ after, ops = .code .unspendable :: after := by
  cases ops with
  | nil => cases h
  | cons op after =>
    obtain ⟨hop, -⟩ := List.forall_mem_cons.mp hin
    cases op with
    | push data =>
      have hb : UInt8.ofNat data.length = 0x6a := Option.some.inj h
      have hp := isPushSize_length hop
      rw [hb] at hp
      exact absurd hp (by decide)
    | code op =>
      have hb : op.byte = 0x6a := Option.some.inj h
      have hop := op.ofByte?_byte
      rw [hb, ← Opcode.byte_unspendable, Opcode.ofByte?_byte] at hop
      rw [Option.some.inj hop]
      exact ⟨after, rfl⟩
    | fail => exact hop.elim

section

variable {p : Primitives} {tx : Transaction} {index : Int} {coins : Coins} {input : Input}
  {spent : Output}

/-- **The spendings that get past the mark** are those whose unlocking script ends inside a push
that takes the mark, and maybe more of the locking script, for data. -/
theorem verifyInput_unspendable_iff (hin : tx.input? index = .ok (some input))
    (hspent : coins.find? input.previous = some spent)
    (hlocking : spent.script.head? = some 0x6a) :
    (verifyInput p tx index coins).1 = .ok true ↔
      ∃ front size held taken back before after,
        input.script = front ++ size :: held ∧ spent.script = taken ++ back ∧ taken ≠ [] ∧
        isPushSize size = true ∧ size.toNat = held.length + taken.length ∧
        operationsOf front = .ok before ∧ operationsOf back = .ok after ∧
        Accepts (Spend.environment p ⟨tx, index, coins⟩)
          (before ++ .push (held ++ taken) :: after) := by
  rw [verifyInput_eq_true_iff hin hspent]
  constructor
  · rintro ⟨ops, hops, haccepts⟩
    obtain ⟨hscript, hbytes⟩ := (operationsOf_eq_ok_iff _ _).mp hops
    obtain ⟨a, b, rfl, -, hb⟩ | ⟨before, held, taken, after, rfl, htaken, hu, hl⟩ :=
      Operation.bytesOf_eq_append hscript hbytes
    · -- the locking script is read from its first byte on
      have hinb : ∀ op ∈ b, op.InScript := fun op hop => hscript op (List.mem_append_right a hop)
      obtain ⟨after, rfl⟩ := Operation.exists_of_bytesOf_unspendable hinb (hb ▸ hlocking)
      exact absurd haccepts (not_accepts_unspendable _ a after)
    · have hpush := hscript (.push (held ++ taken)) (by simp)
      refine ⟨Operation.bytesOf before, UInt8.ofNat (held ++ taken).length, held, taken,
        Operation.bytesOf after, before, after, hu, hl, htaken,
        Operation.isPushSize_length hpush, ?_, ?_, ?_, haccepts⟩
      · rw [Operation.toNat_length hpush, List.length_append]
      · exact (operationsOf_eq_ok_iff _ _).mpr
          ⟨fun op hop => hscript op (List.mem_append_left _ hop), rfl⟩
      · exact (operationsOf_eq_ok_iff _ _).mpr
          ⟨fun op hop => hscript op (by simp [hop]), rfl⟩
  · rintro ⟨front, size, held, taken, back, before, after, hu, hl, -, hp, hsize, hfront, hback,
      haccepts⟩
    obtain ⟨hbefore, rfl⟩ := (operationsOf_eq_ok_iff _ _).mp hfront
    obtain ⟨hafter, rfl⟩ := (operationsOf_eq_ok_iff _ _).mp hback
    rw [← List.length_append] at hsize
    have hpush : Operation.InScript (.push (held ++ taken)) := by
      rw [Operation.InScript, ← hsize]
      exact isPushSize_iff.mp hp
    refine ⟨before ++ .push (held ++ taken) :: after, ?_, haccepts⟩
    refine (operationsOf_eq_ok_iff _ _).mpr ⟨?_, ?_⟩
    · rw [List.forall_mem_append, List.forall_mem_cons]
      exact ⟨hbefore, hpush, hafter⟩
    · rw [hu, hl, Operation.bytesOf_append, Operation.bytesOf_cons, Operation.bytes, ← hsize,
        UInt8.ofNat_toNat]
      simp

/-- A script that pushes one and then takes the mark for the second byte of a push. -/
theorem verifyInput_unspendable_swallowed :
    let spend := Spend.sole [0x51, 2, 0xaa] [0x6a]
    (verifyInput Primitives.standard spend.transaction spend.input spend.coins).1 = .ok true := by
  obtain ⟨input, hin, hscript, hspent⟩ := Spend.exists_input_sole [0x51, 2, 0xaa] [0x6a]
  have hone : operationsOf [0x51] = .ok [.code (.immediate ⟨1, by decide⟩)] :=
    (operationsOf_eq_ok_iff _ _).mpr ⟨by simp [Operation.InScript], by decide⟩
  have hnone : operationsOf [] = .ok [] :=
    (operationsOf_eq_ok_iff _ _).mpr ⟨by simp, rfl⟩
  refine (verifyInput_unspendable_iff hin hspent rfl).mpr
    ⟨[0x51], 2, [0xaa], [0x6a], [], _, _, hscript, rfl, List.cons_ne_nil _ _, by decide, rfl, hone,
      hnone, ?_⟩
  have hfits : Stack.Fits [[0xaa, 0x6a], [1]] := ⟨⟨by decide, by decide⟩, by decide⟩
  exact ⟨Stack.ofItems [[0xaa, 0x6a], [1]], rfl, finish_ofItems_cons hfits⟩

/-- The mark does not refuse every spending: a push of six bytes takes it with all behind it. -/
theorem not_forall_unspendable_refused :
    ¬ ∀ (tx : Transaction) (index : Int) (coins : Coins) (input : Input) (spent : Output),
      tx.input? index = .ok (some input) → coins.find? input.previous = some spent →
      spent.script.head? = some 0x6a →
      (verifyInput Primitives.standard tx index coins).1 ≠ .ok true := by
  intro hall
  obtain ⟨input, hin, hscript, hspent⟩ :=
    Spend.exists_input_sole [6] [0x6a, 0x04, 0xde, 0xad, 0xbe, 0xef]
  refine hall _ _ _ input _ hin hspent rfl ((verifyInput_eq_true_iff hin hspent).mpr
    ⟨[.push [0x6a, 0x04, 0xde, 0xad, 0xbe, 0xef]], ?_, ?_⟩)
  · rw [hscript]
    exact (operationsOf_eq_ok_iff _ _).mpr ⟨by simp [Operation.InScript], by decide⟩
  · have hfits : Stack.Fits [[0x6a, 0x04, 0xde, 0xad, 0xbe, 0xef]] :=
      ⟨⟨by decide, by decide⟩, by decide⟩
    exact ⟨Stack.ofItems [[0x6a, 0x04, 0xde, 0xad, 0xbe, 0xef]], rfl, finish_ofItems_cons hfits⟩

/-- **An unlocking script that can be read on its own** does not get past the mark. -/
theorem verifyInput_unspendable_of_parse (hin : tx.input? index = .ok (some input))
    (hspent : coins.find? input.previous = some spent)
    (hlocking : spent.script.head? = some 0x6a) {before : List Operation}
    (hunlocking : operationsOf input.script = .ok before) :
    (verifyInput p tx index coins).1 ≠ .ok true := by
  rw [Ne, verifyInput_eq_true_iff hin hspent]
  rintro ⟨ops, hops, haccepts⟩
  obtain ⟨rest, hrest, rfl⟩ := (operationsOf_append_eq_ok_iff hunlocking).mp hops
  obtain ⟨hin', hbytes⟩ := (operationsOf_eq_ok_iff _ _).mp hrest
  obtain ⟨after, rfl⟩ := Operation.exists_of_bytesOf_unspendable hin' (hbytes ▸ hlocking)
  exact not_accepts_unspendable _ before after haccepts

end

end SpendScript
