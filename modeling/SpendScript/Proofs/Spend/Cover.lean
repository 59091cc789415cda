import Mathlib.Algebra.Group.Nat.Defs
import SpendScript.Spend.SignatureHash

/-!
# The covered transaction

For an input that exists, and an output at its place where only that output is covered, the covered
transaction exists: every place that is changed on the way is a place of its list. Inputs are
counted by an int of 32 bits; where it counts all of them, the covered transaction is given field by
field.

* `changeBelow`, **`Transaction.atEach_eq_ok`**: changes at one place after the other;
* `SignatureHash.signedInputs`, `SignatureHash.coveredInputs`, `SignatureHash.coveredOutputs`;
* `strikeInputs_congr`: what is left of inputs that are struck;
* `putCode_eq`, `strikeUncovered_eq`, `isolateInput_eq`, **`cover_eq`**: the covered transaction;
* `Transaction.Counted`, `message_eq`, `hash_eq`: the bytes that are signed, and their digest;
* **`exists_cover`**, **`exists_hash`**: every signature hash exists, whatever the index.
-/

namespace SpendScript

/-! ## Changes at each place -/

section Places

variable {α : Type} {f : Nat → α → α} {xs : List α}

/-- The list with the elements below place `count` changed. -/
def changeBelow (count : Nat) (f : Nat → α → α) (xs : List α) : List α :=
  xs.mapIdx fun i x => if i < count then f i x else x

@[simp] theorem length_changeBelow (count : Nat) : (changeBelow count f xs).length = xs.length :=
  List.length_mapIdx

theorem getElem?_changeBelow (count j : Nat) :
    (changeBelow count f xs)[j]? = xs[j]?.map fun x => if j < count then f j x else x :=
  List.getElem?_mapIdx

theorem changeBelow_zero : changeBelow 0 f xs = xs := by
  apply List.ext_getElem?
  intro j
  rw [getElem?_changeBelow]
  simp

theorem changeBelow_length : changeBelow xs.length f xs = xs.mapIdx f := by
  apply List.ext_getElem?
  intro j
  rw [getElem?_changeBelow, List.getElem?_mapIdx]
  by_cases hj : j < xs.length
  · simp [hj]
  · simp [List.getElem?_eq_none (Nat.not_lt.mp hj)]

theorem modify_changeBelow (count : Nat) :
    (changeBelow count f xs).modify count (f count) = changeBelow (count + 1) f xs := by
  apply List.ext_getElem?
  intro j
  rw [List.getElem?_modify, getElem?_changeBelow, getElem?_changeBelow]
  cases xs[j]? with
  | none => rfl
  | some x =>
    obtain hj | rfl | hj := Nat.lt_trichotomy j count
    · have hne : count ≠ j := by omega
      have hj' : j < count + 1 := by omega
      simp [hj, hj', hne]
    · simp
    · have hne : count ≠ j := by omega
      have hle : ¬ j < count := by omega
      have hle' : ¬ j < count + 1 := by omega
      simp [hle, hle', hne]

end Places

namespace Transaction

variable {tx : Transaction} {change : Transaction → Nat → Except AccessError Transaction}

/-- **Changes at one place after the other** succeed if each does after the ones before it. -/
theorem atEach_eq_ok (after : Nat → Transaction) {count : Nat}
    (hstep : ∀ i < count, change (after i) i = .ok (after (i + 1))) :
    (after 0).atEach count change = .ok (after count) := by
  induction count with
  | zero => rfl
  | succ count ih =>
    have hbefore := ih fun i hi => hstep i (by omega)
    unfold atEach at hbefore ⊢
    rw [List.range_succ, List.foldlM_append, hbefore]
    change ([count].foldlM change (after count)) = _
    rw [List.foldlM_cons, hstep count (by omega)]
    rfl

/-- A change that concerns one input only, at each input below a count. -/
theorem atEach_inputs {f : Nat → Input → Input} {count : Nat} (hcount : count ≤ tx.inputs.length)
    (hstep : ∀ (tx : Transaction) (i : Nat), i < tx.inputs.length →
      change tx i = .ok { tx with inputs := tx.inputs.modify i (f i) }) :
    tx.atEach count change = .ok { tx with inputs := changeBelow count f tx.inputs } := by
  -- after `i` rounds the inputs below `i` are changed
  have hrun : ({ tx with inputs := changeBelow 0 f tx.inputs } : Transaction).atEach
      count change = .ok { tx with inputs := changeBelow count f tx.inputs } := by
    refine atEach_eq_ok (fun i => { tx with inputs := changeBelow i f tx.inputs }) ?_
    intro i hi
    rw [hstep _ i (by rw [length_changeBelow]; omega), modify_changeBelow]
  rwa [changeBelow_zero] at hrun

/-- There are so few inputs that an int which counts any of them counts all. -/
def Counted (tx : Transaction) : Prop := tx.inputs.length ≤ 2 ^ 32

instance (tx : Transaction) : Decidable tx.Counted := inferInstanceAs (Decidable (_ ≤ _))

theorem Counted.inputCount_eq (h : tx.Counted) {n : Nat} (hn : (n : Int) < tx.inputCount.toInt) :
    tx.inputCount.toInt.toNat = tx.inputs.length := by
  rw [inputCount, toInt_ofNat_eq_of_lt h hn, Int.toNat_natCast]

theorem lt_of_lt_inputCount {n : Nat} (hn : (n : Int) < tx.inputCount.toInt) :
    n < tx.inputs.length := by
  have hle := tx.toNat_inputCount_le
  omega

theorem lt_of_lt_outputCount {n : Nat} (hn : (n : Int) < tx.outputCount.toInt) :
    n < tx.outputs.length := by
  have hle := tx.toNat_outputCount_le
  omega

end Transaction

namespace SignatureHash

/-! ## What is covered -/

variable {tx : Transaction} {n : Nat} {code : Bytes} {hashType : HashType}

/-- The inputs without scripts, and without sequence numbers of other inputs than the one at
`index` if `strike` says so. -/
def strikeInputs (strike : Bool) (index : Int) (inputs : List Input) : List Input :=
  inputs.mapIdx fun i input =>
    { input with
      script := []
      sequence := if strike && (i : Int) != index then 0 else input.sequence }

/-- The inputs without scripts but for `code` at place `n`, and without the sequence numbers of the
others if `strike` says so. -/
def signedInputs (strike : Bool) (n : Nat) (code : Bytes) (inputs : List Input) : List Input :=
  (strikeInputs strike n inputs).modify n fun input => { input with script := code }

/-- The inputs that are covered. -/
def coveredInputs (hashType : HashType) (n : Nat) (code : Bytes) (inputs : List Input) :
    List Input :=
  let signed := signedInputs (hashType.outputs != .all) n code inputs
  if hashType.onlyOwnInput then signed[n]?.toList else signed

/-- The outputs that are covered. -/
def coveredOutputs : OutputCoverage → Nat → List Output → List Output
  | .all, _, outputs => outputs
  | .none, _, _ => []
  | .single, n, outputs => List.replicate n struckOutput ++ outputs[n]?.toList

/-- The covered transaction. -/
def covered (tx : Transaction) (n : Nat) (code : Bytes) (hashType : HashType) : Transaction where
  version := tx.version
  inputs := coveredInputs hashType n code tx.inputs
  outputs := coveredOutputs hashType.outputs n tx.outputs
  lockTime := tx.lockTime

@[simp] theorem length_signedInputs (strike : Bool) (inputs : List Input) :
    (signedInputs strike n code inputs).length = inputs.length := by
  simp [signedInputs, strikeInputs]

theorem getElem?_signedInputs (strike : Bool) (inputs : List Input) (j : Nat) :
    (signedInputs strike n code inputs)[j]? = inputs[j]?.map fun input =>
      if j = n then { input with script := code }
      else { input with script := [], sequence := if strike then 0 else input.sequence } := by
  rw [signedInputs, strikeInputs, List.getElem?_modify, List.getElem?_mapIdx]
  cases inputs[j]? with
  | none => rfl
  | some input =>
    by_cases hj : j = n
    · simp [hj]
    · have hj' : n ≠ j := fun h => hj h.symm
      have hi : (j : Int) ≠ n := fun h => hj (Int.ofNat_inj.mp h)
      simp [hj, hj', hi]

/-- Inputs that agree but for scripts and struck sequence numbers are struck to the same. -/
theorem strikeInputs_congr {strike : Bool} {index : Int} {inputs inputs' : List Input}
    (hprevious : inputs.map Input.previous = inputs'.map Input.previous)
    (hown : ∀ n : Nat, n = index → inputs[n]?.map Input.sequence = inputs'[n]?.map Input.sequence)
    (hothers : strike = false → inputs.map Input.sequence = inputs'.map Input.sequence) :
    strikeInputs strike index inputs = strikeInputs strike index inputs' := by
  apply List.ext_getElem?
  intro j
  have hp := congrArg (·[j]?) hprevious
  simp only [List.getElem?_map] at hp
  rw [strikeInputs, strikeInputs, List.getElem?_mapIdx, List.getElem?_mapIdx]
  cases hx : inputs[j]? with
  | none =>
    rw [hx] at hp
    rw [Option.map_eq_none_iff.mp hp.symm]
  | some input =>
    rw [hx] at hp
    obtain ⟨input', hx', hprev⟩ := Option.map_eq_some_iff.mp hp.symm
    rw [hx', Option.map_some, Option.map_some, ← hprev]
    cases hstruck : strike && (j : Int) != index with
    | true => rfl
    | false =>
      have hs : inputs[j]?.map Input.sequence = inputs'[j]?.map Input.sequence := by
        by_cases hj : (j : Int) = index
        · exact hown j hj
        · have h := congrArg (·[j]?) (hothers (by simpa [hj] using hstruck))
          simpa only [List.getElem?_map] using h
      rw [hx, hx'] at hs
      simp only [Bool.false_eq_true, if_false, Option.some.inj hs]

theorem length_coveredInputs_le {inputs : List Input} :
    (coveredInputs hashType n code inputs).length ≤ inputs.length := by
  unfold coveredInputs
  split
  · change (signedInputs (hashType.outputs != .all) n code inputs)[n]?.toList.length ≤ _
    cases h : (signedInputs (hashType.outputs != .all) n code inputs)[n]? with
    | none => exact Nat.zero_le _
    | some input =>
      have hlt := (List.getElem?_eq_some_iff.mp h).1
      rw [length_signedInputs] at hlt
      exact Nat.lt_of_le_of_lt (Nat.zero_le n) hlt
  · exact Nat.le_of_eq (length_signedInputs _ _)

theorem length_coveredOutputs_le {coverage : OutputCoverage} {outputs : List Output}
    (hn : coverage = .single → n < outputs.length) :
    (coveredOutputs coverage n outputs).length ≤ outputs.length := by
  cases coverage with
  | all => exact Nat.le_refl _
  | none => exact Nat.zero_le _
  | single =>
    rw [coveredOutputs, List.getElem?_eq_getElem (hn rfl), List.length_append,
      List.length_replicate]
    exact hn rfl

/-! ## The way there -/

theorem putCode_eq (hn : n < tx.inputs.length) :
    putCode n code tx = .ok { tx with
      inputs := (changeBelow tx.inputCount.toInt.toNat
        (fun _ input => { input with script := [] }) tx.inputs).modify n
          fun input => { input with script := code } } := by
  have hblank : (tx.atEach tx.inputCount.toInt.toNat fun tx i => tx.setScript i []) =
      .ok { tx with
        inputs := changeBelow tx.inputCount.toInt.toNat
          (fun _ input => { input with script := [] }) tx.inputs } :=
    Transaction.atEach_inputs tx.toNat_inputCount_le
      fun tx i hi => Transaction.updateInput_eq_ok hi _
  rw [putCode, hblank]
  exact Transaction.updateInput_eq_ok (by rwa [length_changeBelow]) _

/-- Where all inputs are counted, all scripts are struck. -/
theorem changeBelow_scripts {inputs : List Input} :
    (changeBelow inputs.length (fun _ input => { input with script := [] }) inputs).modify n
        (fun input => { input with script := code }) =
      signedInputs false n code inputs := by
  rw [changeBelow_length]
  rfl

theorem strikeSequences_eq :
    strikeSequences n tx = .ok { tx with
      inputs := changeBelow tx.inputCount.toInt.toNat
        (fun i input => if i = n then input else { input with sequence := 0 }) tx.inputs } := by
  refine Transaction.atEach_inputs tx.toNat_inputCount_le fun tx i hi => ?_
  by_cases h : i = n
  · have hsame : (tx.inputs.modify i fun input => input) = tx.inputs := List.modify_id i tx.inputs
    simp only [h, if_true] at hsame ⊢
    rw [hsame]
    rfl
  · have hi' : (i : Int) ≠ n := by omega
    simp only [h, hi', if_false]
    exact Transaction.updateInput_eq_ok hi _

/-- Sequence numbers may be struck after the scripts. -/
theorem mapIdx_signedInputs (inputs : List Input) :
    ((signedInputs false n code inputs).mapIdx fun i input =>
      if i = n then input else { input with sequence := 0 }) =
        signedInputs true n code inputs := by
  apply List.ext_getElem?
  intro j
  rw [List.getElem?_mapIdx, getElem?_signedInputs, getElem?_signedInputs, Option.map_map]
  congr 1
  funext input
  by_cases hj : j = n <;> simp [hj]

theorem changeBelow_take {outputs : List Output} (h : n < outputs.length) :
    changeBelow n (fun _ _ => struckOutput) (outputs.take (n + 1)) =
      List.replicate n struckOutput ++ outputs[n]?.toList := by
  apply List.ext_getElem?
  intro j
  rw [getElem?_changeBelow, List.getElem?_take, List.getElem?_append, List.length_replicate,
    List.getElem?_eq_getElem h]
  obtain hj | rfl | hj := Nat.lt_trichotomy j n
  · have hjo : j < outputs.length := by omega
    simp [hj, hjo, Nat.lt_succ_of_lt hj]
  · simp [h]
  · have hj' : ¬ j < n + 1 := by omega
    have hj'' : ¬ j < n := by omega
    have hd : j - n ≠ 0 := by omega
    simp [hj', hj'', hd]

/-- The outputs before the one at `n` are struck one after the other. -/
theorem atEach_outputs (tx : Transaction) (hn : n < tx.outputs.length) :
    Transaction.atEach { tx with outputs := tx.outputs.take (n + 1) } n
        (fun tx i => tx.setOutput i struckOutput) =
      .ok { tx with outputs := List.replicate n struckOutput ++ tx.outputs[n]?.toList } := by
  let struck (i : Nat) : List Output :=
    changeBelow i (fun _ _ => struckOutput) (tx.outputs.take (n + 1))
  have hlength (i : Nat) : (struck i).length = n + 1 := by
    rw [length_changeBelow, List.length_take, Nat.min_eq_left hn]
  have hrun : Transaction.atEach { tx with outputs := struck 0 } n
      (fun tx i => tx.setOutput i struckOutput) = .ok { tx with outputs := struck n } := by
    refine Transaction.atEach_eq_ok (fun i => { tx with outputs := struck i }) ?_
    intro i hi
    rw [Transaction.setOutput_eq_ok (by change i < (struck i).length; rw [hlength]; omega)]
    exact congrArg (fun outputs => Except.ok { tx with outputs }) (modify_changeBelow i)
  rwa [show struck 0 = tx.outputs.take (n + 1) from changeBelow_zero,
    show struck n = _ from changeBelow_take hn] at hrun

/-- Outputs are struck after sequence numbers. -/
theorem strikeUncovered_of_free {free : Transaction} (coverage : OutputCoverage)
    (hfree : strikeSequences n tx = .ok free) (houtputs : free.outputs = tx.outputs)
    (ho : coverage = .single → n < tx.outputs.length) :
    strikeUncovered coverage n tx = .ok
      { if coverage = .all then tx else free with
        outputs := coveredOutputs coverage n tx.outputs } := by
  cases coverage with
  | all => rfl
  | none =>
    rw [strikeUncovered, hfree]
    exact Transaction.resizeOutputs_eq_ok (Nat.zero_le _)
  | single =>
    have hn : n < free.outputs.length := houtputs ▸ ho rfl
    have hcut : free.resizeOutputs ((n : Int) + 1) =
        .ok { free with outputs := free.outputs.take (n + 1) } :=
      Transaction.resizeOutputs_eq_ok hn
    rw [strikeUncovered, hfree]
    change (free.resizeOutputs ((n : Int) + 1) >>= fun cut => _) = _
    rw [hcut, ← houtputs]
    exact atEach_outputs free hn

theorem strikeUncovered_eq (coverage : OutputCoverage)
    (hall : tx.inputCount.toInt.toNat = tx.inputs.length)
    (ho : coverage = .single → n < tx.outputs.length) :
    strikeUncovered coverage n { tx with inputs := signedInputs false n code tx.inputs } =
      .ok { tx with
        inputs := signedInputs (coverage != .all) n code tx.inputs
        outputs := coveredOutputs coverage n tx.outputs } := by
  have hlength : (signedInputs false n code tx.inputs).length = tx.inputs.length :=
    length_signedInputs _ _
  have hcount : Transaction.inputCount
      { tx with inputs := signedInputs false n code tx.inputs } = tx.inputCount :=
    congrArg Int32.ofNat hlength
  have hfree : strikeSequences n { tx with inputs := signedInputs false n code tx.inputs } =
      .ok { tx with inputs := signedInputs true n code tx.inputs } := by
    rw [strikeSequences_eq, hcount, hall, ← hlength, changeBelow_length, mapIdx_signedInputs]
  rw [strikeUncovered_of_free coverage hfree rfl ho]
  cases coverage <;> rfl

theorem isolateInput_eq (hn : n < tx.inputs.length) :
    isolateInput n tx = .ok { tx with inputs := tx.inputs[n]?.toList } := by
  have hpos : 1 ≤ tx.inputs.length := by omega
  have hown : tx.input n = .ok tx.inputs[n] := elementAt_eq_ok hn
  have halone : tx.resizeInputs 1 = .ok { tx with inputs := tx.inputs.take 1 } :=
    Transaction.resizeInputs_eq_ok hpos
  have hlen : 0 < (tx.inputs.take 1).length := by simp; omega
  rw [isolateInput, hown, halone, List.getElem?_eq_getElem hn]
  change Transaction.updateInput { tx with inputs := tx.inputs.take 1 } (0 : Nat) _ = _
  rw [Transaction.updateInput_eq_ok hlen]
  obtain ⟨first, others, h⟩ := List.exists_cons_of_length_pos hpos
  simp [h]

/-- **The covered transaction** of an input that exists. -/
theorem cover_eq (hn : n < tx.inputs.length)
    (hall : tx.inputCount.toInt.toNat = tx.inputs.length)
    (ho : hashType.outputs = .single → n < tx.outputs.length) :
    cover tx n code hashType = .ok (covered tx n code hashType) := by
  unfold cover
  rw [putCode_eq hn, hall, changeBelow_scripts]
  change (strikeUncovered hashType.outputs n _ >>= fun signed => _) = _
  rw [strikeUncovered_eq _ hall ho]
  cases hown : hashType.onlyOwnInput with
  | true =>
    have hn' : n < (signedInputs (hashType.outputs != .all) n code tx.inputs).length := by
      rwa [length_signedInputs]
    change isolateInput n _ = _
    rw [isolateInput_eq hn', covered, coveredInputs, hown, if_pos rfl]
  | false => rw [covered, coveredInputs, hown]; rfl

/-- **Something is covered**, however many inputs there are: no access is refused. -/
theorem exists_cover (code : Bytes) (hn : n < tx.inputs.length)
    (ho : hashType.outputs = .single → n < tx.outputs.length) :
    ∃ copy, cover tx n code hashType = .ok copy ∧ copy.inputs.length ≤ tx.inputs.length ∧
      copy.outputs.length ≤ tx.outputs.length := by
  let signed : Transaction := { tx with
    inputs := (changeBelow tx.inputCount.toInt.toNat
      (fun _ input => { input with script := [] }) tx.inputs).modify n
        fun input => { input with script := code } }
  have hsigned : signed.inputs.length = tx.inputs.length := by simp [signed]
  obtain ⟨free, hfree, hlength, houtputs⟩ : ∃ free, strikeSequences n signed = .ok free ∧
      free.inputs.length = tx.inputs.length ∧ free.outputs = tx.outputs :=
    ⟨_, strikeSequences_eq, by rw [← hsigned, length_changeBelow], rfl⟩
  have hstruck := strikeUncovered_of_free hashType.outputs hfree houtputs ho
  generalize hcopy : (Transaction.mk _ _ _ _ : Transaction) = struck at hstruck
  have hinputs : struck.inputs.length = tx.inputs.length := by
    subst hcopy
    dsimp only
    split
    · exact hsigned
    · exact hlength
  have hle : struck.outputs.length ≤ tx.outputs.length := by
    subst hcopy
    exact length_coveredOutputs_le ho
  have hcover : cover tx n code hashType =
      if hashType.onlyOwnInput then isolateInput n struck else .ok struck := by
    unfold cover
    rw [putCode_eq hn]
    change (strikeUncovered hashType.outputs n signed >>= fun signed => _) = _
    rw [hstruck]
    rfl
  rw [hcover]
  cases hashType.onlyOwnInput with
  | true =>
    refine ⟨_, isolateInput_eq (by rwa [hinputs]), ?_, hle⟩
    rw [List.getElem?_eq_getElem (by rwa [hinputs])]
    exact Nat.lt_of_le_of_lt (Nat.zero_le n) hn
  | false => exact ⟨struck, rfl, Nat.le_of_eq hinputs, hle⟩

section Counted

variable (hcounted : tx.Counted) (hn : (n : Int) < tx.inputCount.toInt)
include hcounted hn

theorem message_eq (ho : hashType.outputs = .single → n < tx.outputs.length) :
    message tx n code hashType =
      .ok ((covered tx n code hashType).encode ++ encodeWord hashType) := by
  rw [message, cover_eq (Transaction.lt_of_lt_inputCount hn) (hcounted.inputCount_eq hn) ho]
  rfl

theorem hash_eq (p : Primitives)
    (ho : hashType.outputs = .single → (n : Int) < tx.outputCount.toInt) :
    hash p tx n code hashType =
      .ok (p.hash256 ((covered tx n code hashType).encode ++ encodeWord hashType), []) := by
  have hin : ¬ ((n : Int) < 0 ∨ tx.inputCount.toInt ≤ n) := by omega
  have hout : ¬ (hashType.outputs = .single ∧ tx.outputCount.toInt ≤ n) := by
    rintro ⟨hs, hle⟩
    have := ho hs
    omega
  rw [hash, if_neg hin, if_neg hout,
    message_eq hcounted hn fun hs => Transaction.lt_of_lt_outputCount (ho hs)]
  rfl

end Counted

/-- **Every signature hash exists**, whatever the index and the hash type. -/
theorem exists_hash (p : Primitives) (tx : Transaction) (index : Int) (code : Bytes)
    (hashType : HashType) : ∃ answer, hash p tx index code hashType = .ok answer := by
  by_cases hin : index < 0 ∨ tx.inputCount.toInt ≤ index
  · exact ⟨_, by rw [hash, if_pos hin]⟩
  · by_cases hout : hashType.outputs = .single ∧ tx.outputCount.toInt ≤ index
    · exact ⟨_, by rw [hash, if_neg hin, if_pos hout]⟩
    · obtain ⟨n, rfl⟩ := Int.eq_ofNat_of_zero_le (show 0 ≤ index by omega)
      have hn : n < tx.inputs.length := Transaction.lt_of_lt_inputCount (by omega)
      have ho (hs : hashType.outputs = .single) : n < tx.outputs.length :=
        Transaction.lt_of_lt_outputCount (by have := mt (And.intro hs) hout; omega)
      obtain ⟨copy, hcopy, -⟩ := exists_cover code hn ho
      exact ⟨_, by rw [hash, if_neg hin, if_neg hout, message, hcopy]; rfl⟩

end SignatureHash

end SpendScript
