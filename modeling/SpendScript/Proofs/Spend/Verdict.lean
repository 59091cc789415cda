import SpendScript.Proofs.Script.Outcome
import SpendScript.Proofs.Script.Units
import SpendScript.Proofs.Spend.Cover
import SpendScript.Spend.Verify

/-!
# The verdict on an input

Every question about a signature has an answer, so the verdict on an input that points at a known
output depends on two things only: whether the two scripts together can be read, and where the
operations read lead from the empty stack.

* `Spend.check_concat`, **`Spend.exists_check_iff`**, `Spend.answers_environment`: the answers;
* **`verifyInput_eq`**: the verdict is that of a run;
* **`verifyInput_eq_true_iff`**: when it is that the input may spend;
* `Spend.sole`: the smallest spending.
-/

namespace SpendScript

namespace Spend

variable (p : Primitives) (spend : Spend)

theorem check_nil (key : Bytes) : check p spend [] key = .ok (false, []) := rfl

theorem check_unknown (h : spend.output? = none) (der : Bytes) (hashType : UInt8) (key : Bytes) :
    ∃ log, check p spend (der ++ [hashType]) key = .ok (false, log) := by
  rw [check_eq, List.getLast?_concat, h]
  exact ⟨_, rfl⟩

/-- **The check of a signature** that ends in its hash type. -/
theorem check_concat {spent : Output} (h : spend.output? = some spent) (der : Bytes)
    (hashType : UInt8) (key : Bytes) :
    ∃ digest log more, SignatureHash.hash p spend.transaction spend.input spent.script
        hashType.toUInt32 = .ok (digest, log) ∧
      check p spend (der ++ [hashType]) key = .ok ((p.verify key der digest).1, more) := by
  obtain ⟨⟨digest, log⟩, hd⟩ := SignatureHash.exists_hash p spend.transaction spend.input
    spent.script hashType.toUInt32
  refine ⟨digest, log, log ++ (p.verify key der digest).2, hd, ?_⟩
  rw [check_eq, List.getLast?_concat, List.dropLast_concat, h]
  simp only [hd]
  rfl

/-- **When a key signed the spending**: the signature ends in a hash type and is one by the key for
the digest that this hash type asks for. -/
theorem exists_check_iff {spent : Output} (h : spend.output? = some spent) (signature key : Bytes) :
    (∃ log, check p spend signature key = .ok (true, log)) ↔
      ∃ der hashType digest log, signature = der ++ [hashType] ∧
        SignatureHash.hash p spend.transaction spend.input spent.script hashType.toUInt32 =
          .ok (digest, log) ∧
        (p.verify key der digest).1 = true := by
  constructor
  · rintro ⟨log, hcheck⟩
    obtain rfl | ⟨der, hashType, rfl⟩ := signature.eq_nil_or_concat
    · rw [check_nil] at hcheck
      cases hcheck
    · rw [List.concat_eq_append] at hcheck ⊢
      obtain ⟨digest, log', more, hdigest, hanswer⟩ := check_concat p spend h der hashType key
      rw [hanswer] at hcheck
      exact ⟨der, hashType, digest, log', rfl, hdigest, congrArg Prod.fst (Except.ok.inj hcheck)⟩
  · rintro ⟨der, hashType, digest, log, rfl, hdigest, hverify⟩
    obtain ⟨digest', log', more, hdigest', hanswer⟩ := check_concat p spend h der hashType key
    obtain ⟨rfl, rfl⟩ := Prod.mk.inj (Except.ok.inj (hdigest'.symm.trans hdigest))
    exact ⟨more, by rw [hanswer, hverify]⟩

theorem answers_environment : (environment p spend).Answers := by
  intro signature key
  change ∃ answer, check p spend signature key = .ok answer
  obtain rfl | ⟨der, hashType, rfl⟩ := signature.eq_nil_or_concat
  · exact ⟨_, check_nil p spend key⟩
  · rw [List.concat_eq_append]
    cases h : spend.output? with
    | none =>
      obtain ⟨log, hc⟩ := check_unknown p spend h der hashType key
      exact ⟨_, hc⟩
    | some spent =>
      obtain ⟨_, _, more, _, hc⟩ := check_concat p spend h der hashType key
      exact ⟨_, hc⟩

end Spend

section

variable {p : Primitives} {tx : Transaction} {index : Int} {coins : Coins} {input : Input}
  {spent : Output}

/-- **The verdict** on an input that points at a known output is that of a run. -/
theorem verifyInput_eq (hin : tx.input? index = .ok (some input))
    (hspent : coins.find? input.previous = some spent) {ops : List Operation}
    (hops : Program.operationsOf (input.script ++ spent.script) = .ok ops) :
    (verifyInput p tx index coins).1 =
      (Program.runFrom (Spend.environment p ⟨tx, index, coins⟩) (fun _ => ()) 0 ops
        Stack.empty).verdict.mapError .access := by
  have hrun := Program.run_eq_runFrom (Spend.environment p ⟨tx, index, coins⟩) (fun _ => ())
    ⟨ops, Program.addressOf p ops⟩
  unfold verifyInput Program.parse
  simp only [hin, hspent, hops]
  exact congrArg (fun run : Run Unit => run.verdict.mapError VerifyError.access) hrun

theorem verifyInput_eq_error (hin : tx.input? index = .ok (some input))
    (hspent : coins.find? input.previous = some spent) {e : ParseError}
    (hops : Program.operationsOf (input.script ++ spent.script) = .error e) :
    (verifyInput p tx index coins).1 = .error (.parse e) := by
  unfold verifyInput Program.parse
  simp only [hin, hspent, hops]
  rfl

theorem verifyInput_eq_true_iff (hin : tx.input? index = .ok (some input))
    (hspent : coins.find? input.previous = some spent) :
    (verifyInput p tx index coins).1 = .ok true ↔
      ∃ ops, Program.operationsOf (input.script ++ spent.script) = .ok ops ∧
        Program.Accepts (Spend.environment p ⟨tx, index, coins⟩) ops := by
  cases hops : Program.operationsOf (input.script ++ spent.script) with
  | error e =>
    rw [verifyInput_eq_error hin hspent hops]
    exact iff_of_false nofun fun ⟨_, h, _⟩ => nomatch h
  | ok ops =>
    rw [verifyInput_eq hin hspent hops, mapError_eq_ok_iff, Program.verdict_runFrom_eq_true_iff]
    constructor
    · exact fun haccepts => ⟨ops, rfl, haccepts⟩
    · rintro ⟨ops', hops', haccepts⟩
      cases hops'
      exact haccepts

end

/-! ## The smallest spending -/

namespace Spend

/-- The spending of a transaction with one input, which unlocks with `unlocking` an output that is
locked with `locking`. -/
def sole (unlocking locking : Bytes) : Spend :=
  let point : OutPoint := ⟨⟨List.replicate 32 0x11, List.length_replicate⟩, 0⟩
  { transaction := ⟨1, [⟨point, unlocking, Input.finalSequence⟩], [⟨1000, [0x51]⟩], 0⟩
    input := 0
    coins := Coins.empty.add point ⟨5000, locking⟩ }

theorem exists_input_sole (unlocking locking : Bytes) :
    ∃ input, (sole unlocking locking).transaction.input? (sole unlocking locking).input =
        .ok (some input) ∧
      input.script = unlocking ∧
      (sole unlocking locking).coins.find? input.previous = some ⟨5000, locking⟩ :=
  ⟨_, rfl, rfl, (Coins.find?_add _ _ _ _).trans (if_pos rfl)⟩

end Spend

end SpendScript
