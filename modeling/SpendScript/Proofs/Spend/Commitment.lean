import SpendScript.Proofs.Spend.Cover
import SpendScript.Proofs.Wire.Transaction

/-!
# What a signature commits to

The bytes that are signed determine the parts of the transaction that the hash type asks for, and
nothing else of it. Where an input stands is known by where the script code stands.

* `HashType.outputs_eq_single_iff`, `HashType.onlyOwnInput_iff`: hash types by their bits;
* `SignatureHash.InputsAgree`, `SignatureHash.OutputsAgree`: two transactions agree on what is
  covered;
* `coveredInputs_eq_iff`, `coveredOutputs_eq_iff`, `covered_inMemory`;
* **`SignatureHash.message_eq_iff`**: two signed messages are the same exactly if all that is
  covered agrees.
-/

namespace SpendScript

namespace HashType

variable {hashType : HashType}

theorem outputs_eq_none_iff : hashType.outputs = .none ↔ hashType &&& 0x1f = 2 := by
  unfold outputs
  split
  · simp [*]
  · split <;> simp [*]

theorem outputs_eq_single_iff : hashType.outputs = .single ↔ hashType &&& 0x1f = 3 := by
  unfold outputs
  split
  · next h => simp [h]
  · split <;> simp [*]

theorem onlyOwnInput_iff : hashType.onlyOwnInput = true ↔ hashType &&& 0x80 ≠ 0 := by
  simp [onlyOwnInput]

end HashType

namespace SignatureHash

/-- The covered parts of the inputs agree: of the signed inputs alone if the bit 0x80 is set, else
of all of them. -/
def InputsAgree (hashType : HashType) (tx : Transaction) (i : Nat) (tx' : Transaction) (i' : Nat) :
    Prop :=
  if hashType &&& 0x80 ≠ 0 then
    tx.inputs[i]?.map Input.previous = tx'.inputs[i']?.map Input.previous ∧
      tx.inputs[i]?.map Input.sequence = tx'.inputs[i']?.map Input.sequence
  else
    i = i' ∧ tx.inputs.map Input.previous = tx'.inputs.map Input.previous ∧
      tx.inputs[i]?.map Input.sequence = tx'.inputs[i']?.map Input.sequence ∧
      (hashType &&& 0x1f ≠ 2 → hashType &&& 0x1f ≠ 3 →
        tx.inputs.map Input.sequence = tx'.inputs.map Input.sequence)

/-- The covered outputs agree: none of them, the one at the signed input's place, or all. -/
def OutputsAgree (hashType : HashType) (tx : Transaction) (i : Nat) (tx' : Transaction) (i' : Nat) :
    Prop :=
  if hashType &&& 0x1f = 2 then True
  else if hashType &&& 0x1f = 3 then i = i' ∧ tx.outputs[i]? = tx'.outputs[i']?
  else tx.outputs = tx'.outputs

/-! ## Inputs -/

variable {n n' : Nat} {code code' : Bytes} {inputs inputs' : List Input}

/-- What scripts and struck sequence numbers have no part in is kept. -/
theorem map_signedInputs {α : Type} {strike : Bool} (f : Input → α)
    (hscript : ∀ input script, f { input with script } = f input)
    (hstruck : strike = true → ∀ input, f { input with script := [], sequence := 0 } = f input) :
    (signedInputs strike n code inputs).map f = inputs.map f := by
  apply List.ext_getElem?
  intro j
  rw [List.getElem?_map, List.getElem?_map, getElem?_signedInputs, Option.map_map]
  congr 1
  funext input
  change f (if j = n then _ else _) = f input
  split
  · exact hscript input code
  · cases strike with
    | true => exact hstruck rfl input
    | false => exact hscript input []

theorem map_previous_signedInputs (strike : Bool) :
    (signedInputs strike n code inputs).map Input.previous = inputs.map Input.previous :=
  map_signedInputs Input.previous (fun _ _ => rfl) fun _ _ => rfl

theorem map_sequence_signedInputs :
    (signedInputs false n code inputs).map Input.sequence = inputs.map Input.sequence :=
  map_signedInputs Input.sequence (fun _ _ => rfl) nofun

/-- The signed input keeps its out point and its sequence number. -/
theorem getElem?_signedInputs_self (strike : Bool) :
    (signedInputs strike n code inputs)[n]? =
      inputs[n]?.map fun input => { input with script := code } := by
  rw [getElem?_signedInputs]
  simp only [if_pos]

/-- **The script code tells the place** of the signed input. -/
theorem place_eq_of_signedInputs {strike strike' : Bool} (hn : n < inputs.length)
    (hcode : code ≠ [])
    (h : signedInputs strike n code inputs = signedInputs strike' n' code' inputs') : n = n' := by
  by_cases hne : n = n'
  · exact hne
  · have hown := congrArg (fun xs => xs[n]?.map Input.script) h
    simp only [getElem?_signedInputs, List.getElem?_eq_getElem hn, Option.map_some, if_pos,
      Option.map_map] at hown
    cases hx : inputs'[n]? with
    | none =>
      rw [hx] at hown
      cases hown
    | some input' =>
      rw [hx] at hown
      simp only [Option.map_some, Function.comp_apply, if_neg hne, Option.some.injEq] at hown
      exact absurd hown hcode

theorem signedInputs_eq_iff {strike : Bool} (hn : n < inputs.length) (hn' : n' < inputs'.length)
    (hcode : code ≠ []) :
    signedInputs strike n code inputs = signedInputs strike n' code' inputs' ↔
      code = code' ∧ n = n' ∧ inputs.map Input.previous = inputs'.map Input.previous ∧
        inputs[n]?.map Input.sequence = inputs'[n']?.map Input.sequence ∧
        (strike = false → inputs.map Input.sequence = inputs'.map Input.sequence) := by
  constructor
  · intro h
    obtain rfl := place_eq_of_signedInputs hn hcode h
    have hprevious := congrArg (List.map Input.previous) h
    rw [map_previous_signedInputs, map_previous_signedInputs] at hprevious
    have hown := congrArg (·[n]?) h
    simp only [getElem?_signedInputs_self, List.getElem?_eq_getElem hn,
      List.getElem?_eq_getElem hn', Option.map_some, Option.some.injEq, Input.mk.injEq] at hown
    refine ⟨hown.2.1, rfl, hprevious, ?_, ?_⟩
    · rw [List.getElem?_eq_getElem hn, List.getElem?_eq_getElem hn']
      exact congrArg some hown.2.2
    · rintro rfl
      have hsequence := congrArg (List.map Input.sequence) h
      rwa [map_sequence_signedInputs, map_sequence_signedInputs] at hsequence
  · rintro ⟨rfl, rfl, hprevious, hown, hothers⟩
    have hstruck : strikeInputs strike n inputs = strikeInputs strike n inputs' := by
      refine strikeInputs_congr hprevious (fun j hj => ?_) hothers
      obtain rfl := Int.ofNat_inj.mp hj
      exact hown
    rw [signedInputs, signedInputs, hstruck]

variable {tx tx' : Transaction} {hashType hashType' : HashType}

theorem strike_eq_false_iff :
    (hashType.outputs != .all) = false ↔ hashType &&& 0x1f ≠ 2 ∧ hashType &&& 0x1f ≠ 3 := by
  rw [Ne, Ne, ← HashType.outputs_eq_none_iff, ← HashType.outputs_eq_single_iff]
  cases hashType.outputs <;> decide

/-- **The covered inputs** are the same exactly if the script codes and the covered parts are. -/
theorem coveredInputs_eq_iff (hn : n < tx.inputs.length) (hn' : n' < tx'.inputs.length)
    (hcode : code ≠ []) :
    coveredInputs hashType n code tx.inputs = coveredInputs hashType n' code' tx'.inputs ↔
      code = code' ∧ InputsAgree hashType tx n tx' n' := by
  unfold coveredInputs InputsAgree
  cases hown : hashType.onlyOwnInput with
  | true =>
    rw [if_pos (HashType.onlyOwnInput_iff.mp hown)]
    simp only [getElem?_signedInputs_self, List.getElem?_eq_getElem hn,
      List.getElem?_eq_getElem hn', if_pos, Option.map_some, Option.toList_some, List.cons.injEq,
      Input.mk.injEq, and_true, Option.some.injEq]
    constructor
    · rintro ⟨hp, hc, hs⟩
      exact ⟨hc, hp, hs⟩
    · rintro ⟨hc, hp, hs⟩
      exact ⟨hp, hc, hs⟩
  | false =>
    have hbit : ¬ hashType &&& 0x80 ≠ 0 := by
      rw [← HashType.onlyOwnInput_iff, hown]
      decide
    rw [if_neg hbit, if_neg (by decide), if_neg (by decide), signedInputs_eq_iff hn hn' hcode,
      strike_eq_false_iff, and_imp]

/-! ## Outputs -/

/-- **The covered outputs** are the same exactly if they agree. -/
theorem coveredOutputs_eq_iff (hn : hashType.outputs = .single → n < tx.outputs.length)
    (hn' : hashType.outputs = .single → n' < tx'.outputs.length) :
    coveredOutputs hashType.outputs n tx.outputs = coveredOutputs hashType.outputs n' tx'.outputs ↔
      OutputsAgree hashType tx n tx' n' := by
  unfold OutputsAgree
  cases hout : hashType.outputs with
  | all =>
    have hnone :=
      mt HashType.outputs_eq_none_iff.mpr (show ¬ hashType.outputs = .none by simp [hout])
    have hsingle :=
      mt HashType.outputs_eq_single_iff.mpr (show ¬ hashType.outputs = .single by simp [hout])
    rw [if_neg hnone, if_neg hsingle, coveredOutputs, coveredOutputs]
  | none =>
    rw [if_pos (HashType.outputs_eq_none_iff.mp hout), coveredOutputs, coveredOutputs]
    exact iff_of_true rfl trivial
  | single =>
    have hbits := HashType.outputs_eq_single_iff.mp hout
    have hnone : ¬ hashType &&& 0x1f = 2 := by
      rw [hbits]
      decide
    rw [if_neg hnone, if_pos hbits, coveredOutputs, coveredOutputs,
      List.getElem?_eq_getElem (hn hout), List.getElem?_eq_getElem (hn' hout)]
    constructor
    · intro h
      have hlength := congrArg List.length h
      simp only [List.length_append, List.length_replicate, Option.toList_some,
        List.length_singleton, Nat.add_right_cancel_iff] at hlength
      subst hlength
      have hlast := List.append_cancel_left h
      exact ⟨rfl, congrArg some (List.cons.inj hlast).1⟩
    · rintro ⟨rfl, h⟩
      rw [h]

/-! ## Sizes -/

theorem script_of_mem_signedInputs {strike : Bool} {input : Input}
    (h : input ∈ signedInputs strike n code inputs) : input.script = code ∨ input.script = [] := by
  obtain ⟨j, hj⟩ := List.mem_iff_getElem?.mp h
  rw [getElem?_signedInputs] at hj
  obtain ⟨input', -, rfl⟩ := Option.map_eq_some_iff.mp hj
  by_cases hjn : j = n
  · rw [if_pos hjn]
    exact Or.inl rfl
  · rw [if_neg hjn]
    exact Or.inr rfl

theorem mem_signedInputs_of_mem_coveredInputs {input : Input}
    (h : input ∈ coveredInputs hashType n code inputs) :
    input ∈ signedInputs (hashType.outputs != .all) n code inputs := by
  unfold coveredInputs at h
  split at h
  · exact List.mem_of_getElem? (Option.mem_toList.mp h)
  · exact h

theorem mem_of_mem_coveredOutputs {coverage : OutputCoverage} {outputs : List Output}
    {output : Output} (h : output ∈ coveredOutputs coverage n outputs) :
    output = struckOutput ∨ output ∈ outputs := by
  cases coverage with
  | all => exact Or.inr h
  | none => cases h
  | single =>
    obtain h | h := List.mem_append.mp h
    · exact Or.inl (List.eq_of_mem_replicate h)
    · exact Or.inr (List.mem_of_getElem? (Option.mem_toList.mp h))

/-- **Covering keeps a transaction in memory.** -/
theorem covered_inMemory (htx : tx.InMemory) (hcode : code.length < 2 ^ 63)
    (hn : hashType.outputs = .single → n < tx.outputs.length) :
    (covered tx n code hashType).InMemory where
  inputs := Nat.le_trans length_coveredInputs_le htx.inputs
  outputs := Nat.le_trans (length_coveredOutputs_le hn) htx.outputs
  inputScripts input h := by
    obtain hs | hs := script_of_mem_signedInputs (mem_signedInputs_of_mem_coveredInputs h)
    · rwa [hs]
    · rw [hs]
      decide
  outputScripts output h := by
    obtain rfl | h := mem_of_mem_coveredOutputs h
    · decide
    · exact htx.outputScripts output h

/-! ## Messages -/

/-- **What a signature commits to.** Two messages, for inputs in range, are made of bytes that are
the same exactly if the hash types are, and all that these say is covered. -/
theorem message_eq_iff (hn : (n : Int) < tx.inputCount.toInt)
    (hn' : (n' : Int) < tx'.inputCount.toInt)
    (hcode : code ≠ []) (hsingle : hashType &&& 0x1f = 3 → (n : Int) < tx.outputCount.toInt)
    (hsingle' : hashType' &&& 0x1f = 3 → (n' : Int) < tx'.outputCount.toInt)
    (hcounted : tx.Counted) (hcounted' : tx'.Counted) (htx : tx.InMemory) (htx' : tx'.InMemory)
    (hlength : code.length < 2 ^ 63) (hlength' : code'.length < 2 ^ 63) :
    ∃ bytes bytes',
      message tx n code hashType = .ok bytes ∧ message tx' n' code' hashType' = .ok bytes' ∧
      (∀ p, hash p tx n code hashType = .ok (p.hash256 bytes, [])) ∧
      (∀ p, hash p tx' n' code' hashType' = .ok (p.hash256 bytes', [])) ∧
      (bytes = bytes' ↔
        hashType = hashType' ∧ tx.version = tx'.version ∧ tx.lockTime = tx'.lockTime ∧
          code = code' ∧ InputsAgree hashType tx n tx' n' ∧ OutputsAgree hashType tx n tx' n') := by
  have hin := Transaction.lt_of_lt_inputCount hn
  have hin' := Transaction.lt_of_lt_inputCount hn'
  have hout (h : hashType.outputs = .single) : (n : Int) < tx.outputCount.toInt :=
    hsingle (HashType.outputs_eq_single_iff.mp h)
  have hout' (h : hashType'.outputs = .single) : (n' : Int) < tx'.outputCount.toInt :=
    hsingle' (HashType.outputs_eq_single_iff.mp h)
  have ho (h : hashType.outputs = .single) := Transaction.lt_of_lt_outputCount (hout h)
  have ho' (h : hashType'.outputs = .single) := Transaction.lt_of_lt_outputCount (hout' h)
  refine ⟨_, _, message_eq hcounted hn ho, message_eq hcounted' hn' ho',
    fun p => hash_eq hcounted hn p hout, fun p => hash_eq hcounted' hn' p hout', ?_⟩
  constructor
  · intro h
    obtain ⟨hcovered, hword⟩ := Transaction.encode_append_inj (covered_inMemory htx hlength ho)
      (covered_inMemory htx' hlength' ho') h
    obtain rfl : hashType = hashType' :=
      ((Decoder.reads_word hashType).inj (Decoder.reads_word hashType')
        (congrArg (· ++ []) hword)).1
    obtain ⟨hversion, hinputs, houtputs, hlock⟩ := Transaction.mk.inj hcovered
    obtain ⟨hsame, hagree⟩ := (coveredInputs_eq_iff hin hin' hcode).mp hinputs
    exact ⟨rfl, hversion, hlock, hsame, hagree, (coveredOutputs_eq_iff ho ho').mp houtputs⟩
  · rintro ⟨rfl, hversion, hlock, hsame, hinputs, houtputs⟩
    have hcovered : covered tx n code hashType = covered tx' n' code' hashType := by
      rw [covered, covered, hversion, hlock,
        (coveredInputs_eq_iff hin hin' hcode).mpr ⟨hsame, hinputs⟩,
        (coveredOutputs_eq_iff ho ho').mpr houtputs]
    rw [hcovered]

/-- Scripts of inputs do not matter, and neither do other inputs if the bit 0x80 is set. -/
theorem message_eq_of_scripts :
    message ⟨1, [⟨OutPoint.null, [0x51], 7⟩], [], 0⟩ (0 : Nat) [0xac] 0x81 =
      message ⟨1, [⟨default, [], 0⟩, ⟨OutPoint.null, [0x52], 7⟩], [], 0⟩ (1 : Nat) [0xac] 0x81 := by
  let tx : Transaction := ⟨1, [⟨OutPoint.null, [0x51], 7⟩], [], 0⟩
  let tx' : Transaction := ⟨1, [⟨default, [], 0⟩, ⟨OutPoint.null, [0x52], 7⟩], [], 0⟩
  have htx : tx.InMemory := ⟨by decide, by decide, by decide, by decide⟩
  have htx' : tx'.InMemory := ⟨by decide, by decide, by decide, by decide⟩
  have hcounted : tx.Counted := by decide
  have hcounted' : tx'.Counted := by decide
  obtain ⟨bytes, bytes', h, h', -, -, hiff⟩ := @message_eq_iff 0 1 [0xac] [0xac] tx tx' 0x81 0x81
    (by decide) (by decide) (by decide) (by decide) (by decide) hcounted hcounted' htx htx'
    (by decide) (by decide)
  exact h.trans ((congrArg Except.ok (hiff.mpr ⟨rfl, rfl, rfl, rfl, ⟨rfl, rfl⟩, rfl⟩)).trans h'.symm)

end SignatureHash

end SpendScript
