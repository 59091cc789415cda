import SpendScript.Proofs.Spend.Cover
import SpendScript.Spend.Verify

/-!
# What a verdict does not depend on

The scripts of a spending see of its transaction and of the coins only what a signature check
answers, and a signature hash strikes out all scripts of inputs before it looks. So the verdict on
an input depends neither on the scripts of other inputs nor on other coins nor on amounts.

* `Transaction.EqButScripts`, `Transaction.AgreeAt`: transactions that differ in scripts of inputs
  at most, or of other inputs;
* **`SignatureHash.hash_congr`**, `SignatureHash.hash_setScript`: scripts and signature hashes;
* **`Spend.environment_eq`**, `environment_eq_of_eqButScripts`, `environment_eq_of_setScript`,
  `environment_eq_of_coins`: what scripts of inputs and other coins cannot change;
* **`verifyInput_congr`**: the verdicts are the same, and so are the logs.
-/

namespace SpendScript

/-- Transactions that differ in nothing but the scripts of inputs other than the one at `index`. -/
structure Transaction.AgreeAt (index : Int) (tx tx' : Transaction) : Prop where
  version : tx.version = tx'.version
  lockTime : tx.lockTime = tx'.lockTime
  outputs : tx.outputs = tx'.outputs
  previous : tx.inputs.map Input.previous = tx'.inputs.map Input.previous
  sequence : tx.inputs.map Input.sequence = tx'.inputs.map Input.sequence
  script : (tx.input index).map Input.script = (tx'.input index).map Input.script

/-- Transactions that differ in nothing but the scripts of inputs. -/
structure Transaction.EqButScripts (tx tx' : Transaction) : Prop where
  version : tx.version = tx'.version
  lockTime : tx.lockTime = tx'.lockTime
  outputs : tx.outputs = tx'.outputs
  previous : tx.inputs.map Input.previous = tx'.inputs.map Input.previous
  sequence : tx.inputs.map Input.sequence = tx'.inputs.map Input.sequence

/-- Coins that lock with the same script what the input at `index` spends, if they hold it. -/
def Coins.AgreeAt (index : Int) (tx : Transaction) (coins coins' : Coins) : Prop :=
  ∀ input, tx.input? index = .ok (some input) →
    (coins.find? input.previous).map Output.script = (coins'.find? input.previous).map Output.script

theorem elementAt_map {α β : Type} (f : α → β) (xs : List α) (index : Int) :
    (elementAt xs index).map f = elementAt (xs.map f) index := by
  unfold elementAt
  by_cases h : 0 ≤ index ∧ index.toNat < xs.length
  · rw [dif_pos h, dif_pos (by rwa [List.length_map])]
    exact congrArg Except.ok (List.getElem_map f).symm
  · rw [dif_neg h, dif_neg (by rwa [List.length_map])]
    rfl

/-- A change at one place that a function does not see. -/
theorem map_modify {α β : Type} {f : α → β} {change : α → α} (h : ∀ a, f (change a) = f a)
    (n : Nat) (xs : List α) : (xs.modify n change).map f = xs.map f := by
  refine List.ext_getElem? fun i => ?_
  rw [List.getElem?_map, List.getElem?_map, List.getElem?_modify]
  cases xs[i]? with
  | none => rfl
  | some a => by_cases hi : n = i <;> simp [hi, h]

variable {index : Int} {tx tx' : Transaction} {coins coins' : Coins}

namespace Transaction

theorem exists_of_setScript {script : Bytes} (h : tx.setScript index script = .ok tx') :
    ∃ n : Nat, index = n ∧ n < tx.inputs.length ∧
      tx' = { tx with inputs := tx.inputs.modify n fun input => { input with script } } := by
  rw [setScript, updateInput, updateAt] at h
  split at h
  · next hrange =>
    cases h
    exact ⟨index.toNat, (Int.toNat_of_nonneg hrange.1).symm, hrange.2, rfl⟩
  · cases h

namespace EqButScripts

theorem refl (tx : Transaction) : EqButScripts tx tx := ⟨rfl, rfl, rfl, rfl, rfl⟩

theorem length_eq (h : EqButScripts tx tx') : tx.inputs.length = tx'.inputs.length := by
  have hlength := congrArg List.length h.previous
  rwa [List.length_map, List.length_map] at hlength

theorem inputCount_eq (h : EqButScripts tx tx') : tx.inputCount = tx'.inputCount :=
  congrArg Int32.ofNat h.length_eq

theorem outputCount_eq (h : EqButScripts tx tx') : tx.outputCount = tx'.outputCount :=
  congrArg (fun outputs : List Output => Int32.ofNat outputs.length) h.outputs

theorem counted (h : EqButScripts tx tx') (hcounted : tx.Counted) : tx'.Counted := by
  rwa [Counted, ← h.length_eq]

theorem previous_eq (h : EqButScripts tx tx') :
    (tx.input? index).map (Option.map Input.previous) =
      (tx'.input? index).map (Option.map Input.previous) := by
  have hinput : (tx.input index).map Input.previous = (tx'.input index).map Input.previous := by
    rw [input, input, elementAt_map, elementAt_map, h.previous]
  rw [input?, input?, ← h.inputCount_eq]
  split
  · rfl
  · cases hx : tx.input index <;> cases hx' : tx'.input index <;> rw [hx, hx'] at hinput
    · exact congrArg Except.error (Except.error.inj hinput)
    · cases hinput
    · cases hinput
    · exact congrArg (fun previous => Except.ok (some previous)) (Except.ok.inj hinput)

/-- Another script at one place. -/
theorem of_setScript {script : Bytes} (h : tx.setScript index script = .ok tx') :
    EqButScripts tx tx' := by
  obtain ⟨n, rfl, hn, rfl⟩ := exists_of_setScript h
  exact
    { version := rfl
      lockTime := rfl
      outputs := rfl
      previous := (map_modify (fun _ => by rfl) n tx.inputs).symm
      sequence := (map_modify (fun _ => by rfl) n tx.inputs).symm }

end EqButScripts

theorem input_of_setScript {script : Bytes} {input : Input}
    (h : tx.setScript index script = .ok tx') (hinput : tx.input index = .ok input) :
    tx'.input index = .ok { input with script } := by
  obtain ⟨n, rfl, hn, rfl⟩ := exists_of_setScript h
  rw [Transaction.input, elementAt_eq_ok hn] at hinput
  cases hinput
  rw [Transaction.input, elementAt_eq_ok (by rwa [List.length_modify]), List.getElem_modify_eq]

namespace AgreeAt

theorem eqButScripts (h : AgreeAt index tx tx') : EqButScripts tx tx' :=
  ⟨h.version, h.lockTime, h.outputs, h.previous, h.sequence⟩

theorem length_eq (h : AgreeAt index tx tx') : tx.inputs.length = tx'.inputs.length :=
  h.eqButScripts.length_eq

/-- The input at the place itself is the same. -/
theorem input_eq (h : AgreeAt index tx tx') : tx.input index = tx'.input index := by
  have hscript := h.script
  unfold input elementAt at hscript ⊢
  have hlength := h.length_eq
  by_cases hi : 0 ≤ index ∧ index.toNat < tx.inputs.length
  · have hi' : 0 ≤ index ∧ index.toNat < tx'.inputs.length := by omega
    have hprevious := congrArg (·[index.toNat]?) h.previous
    have hsequence := congrArg (·[index.toNat]?) h.sequence
    simp only [List.getElem?_map, List.getElem?_eq_getElem hi.2, List.getElem?_eq_getElem hi'.2,
      Option.map_some, Option.some.injEq] at hprevious hsequence
    rw [dif_pos hi, dif_pos hi'] at hscript ⊢
    exact congrArg Except.ok (Input.ext hprevious (Except.ok.inj hscript) hsequence)
  · have hi' : ¬ (0 ≤ index ∧ index.toNat < tx'.inputs.length) := by omega
    rw [dif_neg hi, dif_neg hi']

theorem input?_eq (h : AgreeAt index tx tx') : tx.input? index = tx'.input? index := by
  rw [input?, input?, ← h.eqButScripts.inputCount_eq, ← h.input_eq]

end AgreeAt

end Transaction

open Transaction

namespace SignatureHash

variable (code : Bytes) (hashType : HashType)

theorem covered_congr {n : Nat} (h : EqButScripts tx tx') :
    covered tx n code hashType = covered tx' n code hashType := by
  have hstruck (strike : Bool) :
      strikeInputs strike n tx.inputs = strikeInputs strike n tx'.inputs := by
    refine strikeInputs_congr h.previous (fun j _ => ?_) fun _ => h.sequence
    simpa only [List.getElem?_map] using congrArg (·[j]?) h.sequence
  have hinputs : coveredInputs hashType n code tx.inputs =
      coveredInputs hashType n code tx'.inputs := by
    simp only [coveredInputs, signedInputs, hstruck]
  rw [covered, covered, h.version, h.outputs, h.lockTime, hinputs]

/-- **The signature hash does not depend on scripts of inputs.** -/
theorem hash_congr (p : Primitives) (h : EqButScripts tx tx') (hcounted : tx.Counted) :
    hash p tx index code hashType = hash p tx' index code hashType := by
  have hin_eq := h.inputCount_eq
  have hout_eq := h.outputCount_eq
  by_cases hin : index < 0 ∨ tx.inputCount.toInt ≤ index
  · -- no such input in either transaction
    rw [hash, hash, ← hin_eq, if_pos hin, if_pos hin]
  · obtain ⟨n, rfl⟩ := Int.eq_ofNat_of_zero_le (show 0 ≤ index by omega)
    have hn : (n : Int) < tx.inputCount.toInt := by omega
    have hn' : (n : Int) < tx'.inputCount.toInt := by rwa [← hin_eq]
    by_cases hout : hashType.outputs = .single ∧ tx.outputCount.toInt ≤ n
    · rw [hash, hash, ← hin_eq, ← hout_eq, if_neg hin, if_pos hout, if_neg hin, if_pos hout]
    · have ho (hs : hashType.outputs = .single) : (n : Int) < tx.outputCount.toInt := by
        have := mt (And.intro hs) hout
        omega
      rw [hash_eq hcounted hn p ho, hash_eq (h.counted hcounted) hn' p (by rwa [← hout_eq]),
        covered_congr code hashType h]

/-- The script at the place of the code is replaced in any case. -/
theorem putCode_setScript {script : Bytes} (h : tx.setScript index script = .ok tx') :
    putCode index code tx' = putCode index code tx := by
  obtain ⟨n, rfl, hn, rfl⟩ := exists_of_setScript h
  rw [putCode_eq (by rwa [List.length_modify]), putCode_eq hn, inputCount, inputCount,
    List.length_modify]
  generalize (Int32.ofNat tx.inputs.length).toInt.toNat = count
  refine congrArg (fun inputs => Except.ok { tx with inputs }) (List.ext_getElem? fun j => ?_)
  simp only [List.getElem?_modify, getElem?_changeBelow]
  cases tx.inputs[j]? with
  | none => rfl
  | some input => by_cases hj : n = j <;> by_cases hlt : j < count <;> simp [hj, hlt]

/-- **The signature hash of an input does not depend on its own script**, however many inputs there
are. -/
theorem hash_setScript (p : Primitives) {script : Bytes}
    (h : tx.setScript index script = .ok tx') :
    hash p tx' index code hashType = hash p tx index code hashType := by
  have hsame := EqButScripts.of_setScript h
  rw [hash, hash, message, message, cover, cover, putCode_setScript code h, ← hsame.inputCount_eq,
    ← hsame.outputCount_eq]

end SignatureHash

namespace Spend

theorem output?_eq (spend : Spend) :
    spend.output? =
      match (spend.transaction.input? spend.input).map (Option.map Input.previous) with
      | .ok (some point) => spend.coins.find? point
      | _ => none := by
  unfold output?
  rcases spend.transaction.input? spend.input with e | (_ | input) <;> rfl

theorem output?_congr (h : EqButScripts tx tx') (hc : Coins.AgreeAt index tx coins coins') :
    (output? ⟨tx, index, coins⟩).map Output.script =
      (output? ⟨tx', index, coins'⟩).map Output.script := by
  rw [output?_eq, output?_eq, ← h.previous_eq]
  rcases hin : tx.input? index with e | (_ | input)
  · rfl
  · rfl
  · exact hc input hin

/-- **The scripts of two spendings may ask the same** if the signature hashes are the same, and so
are the scripts that lock what is spent. -/
theorem environment_eq {p : Primitives}
    (hhash : SignatureHash.hash p tx index = SignatureHash.hash p tx' index)
    (hout : (output? ⟨tx, index, coins⟩).map Output.script =
      (output? ⟨tx', index, coins'⟩).map Output.script) :
    environment p ⟨tx, index, coins⟩ = environment p ⟨tx', index, coins'⟩ := by
  have hcheck : check p ⟨tx, index, coins⟩ = check p ⟨tx', index, coins'⟩ := by
    funext signature key
    rw [check_eq, check_eq]
    cases signature.getLast? with
    | none => rfl
    | some hashType =>
      cases hspent : output? ⟨tx, index, coins⟩ with
      | none =>
        rw [hspent] at hout
        rw [Option.map_eq_none_iff.mp hout.symm]
      | some spent =>
        rw [hspent] at hout
        obtain ⟨spent', hspent', hscript⟩ := Option.map_eq_some_iff.mp hout.symm
        rw [hspent']
        simp only [hscript, hhash]
  rw [environment, environment, hcheck]

/-- Other scripts of inputs. -/
theorem environment_eq_of_eqButScripts (p : Primitives) (h : EqButScripts tx tx')
    (hcounted : tx.Counted) (hc : Coins.AgreeAt index tx coins coins') :
    environment p ⟨tx, index, coins⟩ = environment p ⟨tx', index, coins'⟩ :=
  environment_eq
    (funext fun code => funext fun hashType => SignatureHash.hash_congr code hashType p h hcounted)
    (output?_congr h hc)

/-- Another script of the input itself. -/
theorem environment_eq_of_setScript (p : Primitives) {script : Bytes}
    (h : tx.setScript index script = .ok tx') :
    environment p ⟨tx, index, coins⟩ = environment p ⟨tx', index, coins⟩ :=
  environment_eq
    (funext fun code => funext fun hashType =>
      (SignatureHash.hash_setScript code hashType p h).symm)
    (output?_congr (.of_setScript h) fun _ _ => rfl)

/-- Other coins. -/
theorem environment_eq_of_coins (p : Primitives) (hc : Coins.AgreeAt index tx coins coins') :
    environment p ⟨tx, index, coins⟩ = environment p ⟨tx, index, coins'⟩ :=
  environment_eq rfl (output?_congr (.refl tx) hc)

theorem environment_congr (p : Primitives) (h : tx.AgreeAt index tx') (hcounted : tx.Counted)
    (hc : Coins.AgreeAt index tx coins coins') :
    environment p ⟨tx, index, coins⟩ = environment p ⟨tx', index, coins'⟩ :=
  environment_eq_of_eqButScripts p h.eqButScripts hcounted hc

end Spend

/-- **The verdict does not depend on anything else**: not on scripts of other inputs, not on other
coins, and not on amounts. The inputs have to be `Counted`: of more than `2 ^ 32` of them, not all
would lose their scripts before a signature is checked. -/
theorem verifyInput_congr (p : Primitives) (h : tx.AgreeAt index tx') (hcounted : tx.Counted)
    (hc : Coins.AgreeAt index tx coins coins') :
    verifyInput p tx index coins = verifyInput p tx' index coins' := by
  unfold verifyInput
  rw [← h.input?_eq, ← h.eqButScripts.inputCount_eq, Spend.environment_congr p h hcounted hc]
  rcases hin : tx.input? index with e | (_ | input)
  · rfl
  · rfl
  · have hlocking := hc input hin
    cases hspent : coins.find? input.previous with
    | none =>
      rw [hspent] at hlocking
      simp only [Option.map_eq_none_iff.mp hlocking.symm, hspent]
    | some spent =>
      rw [hspent] at hlocking
      obtain ⟨spent', hspent', hscript⟩ := Option.map_eq_some_iff.mp hlocking.symm
      simp only [hspent, hspent', hscript]

/-- Another script at the other input, another amount and another coin leave the verdict. -/
theorem verifyInput_eq_of_other_script :
    verifyInput Primitives.standard
        ⟨1, [⟨OutPoint.null, [0x51], 0⟩, ⟨default, [], 0⟩], [], 0⟩ 0
        (Coins.empty.add OutPoint.null ⟨1, []⟩) =
      verifyInput Primitives.standard
        ⟨1, [⟨OutPoint.null, [0x51], 0⟩, ⟨default, [0x6a], 0⟩], [], 0⟩ 0
        ((Coins.empty.add default ⟨3, []⟩).add OutPoint.null ⟨2, []⟩) := by
  refine verifyInput_congr _ ⟨rfl, rfl, rfl, rfl, rfl, rfl⟩ (by decide) fun input hin => ?_
  obtain rfl : ⟨OutPoint.null, [0x51], 0⟩ = input := Option.some.inj (Except.ok.inj hin)
  rw [Coins.find?_add, Coins.find?_add, if_pos rfl, if_pos rfl]
  rfl

end SpendScript
