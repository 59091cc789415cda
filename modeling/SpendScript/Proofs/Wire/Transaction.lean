import SpendScript.Proofs.Wire.Takes
import SpendScript.Transaction.Wire

/-!
# Transactions and their bytes

Each part of a transaction is read back from its bytes, so the bytes of a transaction determine it,
whatever follows them. Nothing else is taken for a part, but for the form of a number in it.

* `Input.encodeAs`, `Output.encodeAs`: parts with a number in a given form;
* `Decoder.reads_word`, `reads_amount`, `reads_hash256`, `reads_outPoint`, `reads_input`,
  `reads_output`: the parts are read back;
* `Decoder.takes_word`, `takes_amount`, `takes_hash256`, `takes_outPoint`, **`takes_input`**,
  **`takes_output`**: what is taken for them;
* `Transaction.InMemory`: a transaction whose lists are no longer than lists can be;
* **`Transaction.encode_append_inj`**: the bytes determine the transaction.
-/

namespace SpendScript

open CompactSize (Form)

/-! ## Parts with numbers -/

/-- An input with the length of its script in the given form. -/
def Input.encodeAs (form : Form) (input : Input) : Bytes :=
  input.previous.encode ++ form.prefixed input.script ++ encodeWord input.sequence

theorem Input.encode_eq (input : Input) :
    input.encode = input.encodeAs (Form.shortest input.script.length) := by
  rw [encode, encodeAs, CompactSize.prefixed_eq]

/-- An output with the length of its script in the given form. -/
def Output.encodeAs (form : Form) (output : Output) : Bytes :=
  encodeAmount output.value ++ form.prefixed output.script

theorem Output.encode_eq (output : Output) :
    output.encode = output.encodeAs (Form.shortest output.script.length) := by
  rw [encode, encodeAs, CompactSize.prefixed_eq]

namespace Decoder

/-! ## Reading the parts -/

theorem reads_word (w : UInt32) : word.Reads (encodeWord w) w := by
  have hw : (Bytes.ofNatLE 4 w.toNat).toNatLE = w.toNat :=
    Bytes.toNatLE_ofNatLE_of_lt w.toNat_lt
  refine (reads_take (Bytes.length_ofNatLE 4 w.toNat)).bind_nil ?_
  rw [hw, UInt32.ofNat_toNat]
  exact reads_pure w

theorem wrap_toUInt64 (a : Int64) : IntType.i64.wrap a.toUInt64.toNat = a.toInt := by
  have hm : IntType.modulus .i64 = 2 ^ 64 := by decide
  have hn : a.toUInt64.toNat = a.toBitVec.toNat := rfl
  rw [IntType.wrap, if_pos (show IntType.signed .i64 = true from rfl), hm, hn, Int64.toInt,
    BitVec.toInt_eq_toNat_bmod]

theorem reads_amount (a : Int64) : amount.Reads (encodeAmount a) a := by
  have ha : (Bytes.ofNatLE 8 a.toUInt64.toNat).toNatLE = a.toUInt64.toNat :=
    Bytes.toNatLE_ofNatLE_of_lt a.toUInt64.toNat_lt
  refine (reads_take (Bytes.length_ofNatLE 8 a.toUInt64.toNat)).bind_nil ?_
  rw [IntType.ofBytes, ha, IntType.ofBits]
  simp only [wrap_toUInt64, Int64.ofInt_toInt]
  exact reads_pure a

theorem reads_hash256 (h : Hash256) : hash256.Reads h.bytes h := by
  refine (reads_take h.length_bytes).bind_nil ?_
  rw [Digest.ofBytes?, dif_pos h.length_bytes]
  exact reads_pure h

theorem reads_outPoint (p : OutPoint) : OutPoint.decoder.Reads p.encode p :=
  (reads_hash256 p.hash).bind ((reads_word p.index).bind_nil (reads_pure p))

theorem reads_input {form : Form} {input : Input} (h : form.Holds input.script.length) :
    Input.decoder.Reads (input.encodeAs form) input := by
  rw [Input.encodeAs, List.append_assoc]
  exact (reads_outPoint input.previous).bind ((reads_varBytes h).bind
    ((reads_word input.sequence).bind_nil (reads_pure input)))

theorem reads_output {form : Form} {output : Output} (h : form.Holds output.script.length) :
    Output.decoder.Reads (output.encodeAs form) output :=
  (reads_amount output.value).bind ((reads_varBytes h).bind_nil (reads_pure output))

/-! ## What is taken for a part -/

theorem encodeWord_ofBytes {bs : Bytes} (h : bs.length = 4) :
    encodeWord (UInt32.ofNat bs.toNatLE) = bs := by
  have hlt : bs.toNatLE < 2 ^ 32 := by
    have hlt := Bytes.toNatLE_lt bs
    rw [h] at hlt
    omega
  rw [encodeWord, UInt32.toNat_ofNat', Nat.mod_eq_of_lt hlt, ← h, Bytes.ofNatLE_toNatLE]

theorem encodeAmount_ofBytes {bs : Bytes} (h : bs.length = 8) :
    encodeAmount (Int64.ofInt (IntType.i64.ofBytes bs).val) = bs := by
  have hlt : bs.toNatLE < 2 ^ 64 := by
    have hlt := Bytes.toNatLE_lt bs
    rw [h] at hlt
    omega
  have hword : (UInt64.ofNat bs.toNatLE).toInt64.toUInt64.toNat = bs.toNatLE := by
    rw [UInt64.toUInt64_toInt64, UInt64.toNat_ofNat', Nat.mod_eq_of_lt hlt]
  have hvalue : (IntType.i64.ofBytes bs).val = (UInt64.ofNat bs.toNatLE).toInt64.toInt := by
    rw [← wrap_toUInt64, hword, IntType.ofBytes, IntType.ofBits]
  rw [hvalue, Int64.ofInt_toInt, encodeAmount, hword, ← h, Bytes.ofNatLE_toNatLE]

theorem takes_word : word.Takes fun w bytes => bytes = encodeWord w := by
  intro r w r' h
  obtain ⟨bs, r₁, htake, h⟩ := apply_bind_eq_ok.mp h
  cases h
  obtain ⟨_, ⟨hlength, rfl⟩, hpasses⟩ := takes_take _ htake
  exact ⟨_, (encodeWord_ofBytes hlength).symm, hpasses⟩

theorem takes_amount : amount.Takes fun a bytes => bytes = encodeAmount a := by
  intro r a r' h
  obtain ⟨bs, r₁, htake, h⟩ := apply_bind_eq_ok.mp h
  rw [apply_pure] at h
  obtain ⟨ha, rfl⟩ := Prod.mk.inj h
  obtain rfl := Except.ok.inj ha
  obtain ⟨_, ⟨hlength, rfl⟩, hpasses⟩ := takes_take _ htake
  exact ⟨_, (encodeAmount_ofBytes hlength).symm, hpasses⟩

theorem takes_hash256 : hash256.Takes fun hash bytes => bytes = hash.bytes := by
  intro r hash r' h
  obtain ⟨bs, r₁, htake, h⟩ := apply_bind_eq_ok.mp h
  cases h
  obtain ⟨_, ⟨hlength, rfl⟩, hpasses⟩ := takes_take _ htake
  refine ⟨_, ?_, hpasses⟩
  rw [Digest.ofBytes?, dif_pos hlength]
  rfl

theorem takes_outPoint : OutPoint.decoder.Takes fun p bytes => bytes = p.encode := by
  intro r p r' h
  obtain ⟨hash, r₁, hhash, h⟩ := apply_bind_eq_ok.mp h
  obtain ⟨index, r₂, hindex, h⟩ := apply_bind_eq_ok.mp h
  cases h
  obtain ⟨_, rfl, hhash⟩ := takes_hash256 hhash
  obtain ⟨_, rfl, hindex⟩ := takes_word hindex
  exact ⟨_, rfl, hhash.trans hindex⟩

/-- **An input**, with the length of its script in one of its forms. -/
theorem takes_input :
    Input.decoder.Takes fun input bytes =>
      ∃ form : Form, form.Holds input.script.length ∧ bytes = input.encodeAs form := by
  intro r input r' h
  obtain ⟨previous, r₁, hprevious, h⟩ := apply_bind_eq_ok.mp h
  obtain ⟨script, r₂, hscript, h⟩ := apply_bind_eq_ok.mp h
  obtain ⟨sequence, r₃, hsequence, h⟩ := apply_bind_eq_ok.mp h
  cases h
  obtain ⟨_, rfl, hprevious⟩ := takes_outPoint hprevious
  obtain ⟨_, ⟨form, hform, rfl⟩, hscript⟩ := takes_varBytes hscript
  obtain ⟨_, rfl, hsequence⟩ := takes_word hsequence
  exact ⟨_, ⟨form, hform, rfl⟩, (hprevious.trans hscript).trans hsequence⟩

/-- **An output**, with the length of its script in one of its forms. -/
theorem takes_output :
    Output.decoder.Takes fun output bytes =>
      ∃ form : Form, form.Holds output.script.length ∧ bytes = output.encodeAs form := by
  intro r output r' h
  obtain ⟨value, r₁, hvalue, h⟩ := apply_bind_eq_ok.mp h
  obtain ⟨script, r₂, hscript, h⟩ := apply_bind_eq_ok.mp h
  cases h
  obtain ⟨_, rfl, hvalue⟩ := takes_amount hvalue
  obtain ⟨_, ⟨form, hform, rfl⟩, hscript⟩ := takes_varBytes hscript
  exact ⟨_, ⟨form, hform, rfl⟩, hvalue.trans hscript⟩

end Decoder

namespace Transaction

/-- A transaction that memory can hold: no list in it is longer than lists can be. -/
structure InMemory (tx : Transaction) : Prop where
  inputs : tx.inputs.length ≤ Input.maxCount
  outputs : tx.outputs.length ≤ Output.maxCount
  inputScripts : ∀ input ∈ tx.inputs, input.script.length < 2 ^ 63
  outputScripts : ∀ output ∈ tx.outputs, output.script.length < 2 ^ 63

open Decoder

/-- **The bytes of a transaction determine it**, whatever follows them. -/
theorem encode_append_inj {a b : Transaction} (ha : a.InMemory) (hb : b.InMemory) {s t : Bytes}
    (h : a.encode ++ s = b.encode ++ t) : a = b ∧ s = t := by
  have hcount {m n : Nat} (hm : m ≤ n) (hn : n < 2 ^ 64) :
      count.Reads (CompactSize.encode m) m := by
    rw [CompactSize.encode_eq]
    exact reads_count (Form.holds_shortest (Nat.lt_of_le_of_lt hm hn))
  have hinput {input : Input} (hi : input.script.length < 2 ^ 63) :
      Input.decoder.Reads input.encode input := by
    rw [Input.encode_eq]
    exact reads_input (Form.holds_shortest (by omega))
  have houtput {output : Output} (ho : output.script.length < 2 ^ 63) :
      Output.decoder.Reads output.encode output := by
    rw [Output.encode_eq]
    exact reads_output (Form.holds_shortest (by omega))
  simp only [encode, List.append_assoc] at h
  obtain ⟨hversion, h⟩ := (reads_word _).inj (reads_word _) h
  obtain ⟨hin, h⟩ := (hcount ha.inputs (by decide)).inj (hcount hb.inputs (by decide)) h
  obtain ⟨hinputs, h⟩ := flatMap_inj (fun input hi => hinput (ha.inputScripts input hi))
    (fun input hi => hinput (hb.inputScripts input hi)) hin h
  obtain ⟨hout, h⟩ := (hcount ha.outputs (by decide)).inj (hcount hb.outputs (by decide)) h
  obtain ⟨houtputs, h⟩ := flatMap_inj (fun output ho => houtput (ha.outputScripts output ho))
    (fun output ho => houtput (hb.outputScripts output ho)) hout h
  obtain ⟨hlock, h⟩ := (reads_word _).inj (reads_word _) h
  refine ⟨?_, h⟩
  cases a; cases b
  cases hversion; cases hinputs; cases houtputs; cases hlock
  rfl

end Transaction

end SpendScript
