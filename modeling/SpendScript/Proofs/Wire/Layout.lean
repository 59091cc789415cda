import Mathlib.Algebra.Ring.Nat
import SpendScript.Proofs.Wire.Transaction

/-!
# Layouts of transactions

A transaction can be written in many ways, one for each choice of a form for each number in it. A
layout is a transaction together with such a choice. Layouts are what the decoder reads; the layout
of shortest forms is what is written.

* `Transaction.Layout`, `Layout.bytes`, `Layout.numbers`, `Layout.Valid`;
* `Layout.ofTransaction`, `Layout.bytes_ofTransaction`: the layout that is written;
* **`Layout.length_bytes`**: what longer forms cost; `Layout.eq_ofTransaction`;
* **`Layout.reads_decoder`**, **`Layout.takes_decoder`**: what is read, and nothing else is;
* `Transaction.WrittenAs`: the bytes of some layout.
-/

namespace SpendScript.Transaction

open CompactSize (Form)

/-- A transaction with a form for each number that it is written with. -/
structure Layout where
  version : UInt32
  inputCount : Form
  inputs : List (Form × Input)
  outputCount : Form
  outputs : List (Form × Output)
  lockTime : UInt32

namespace Layout

variable (layout : Layout)

def transaction : Transaction :=
  ⟨layout.version, layout.inputs.map Prod.snd, layout.outputs.map Prod.snd, layout.lockTime⟩

def bytes : Bytes :=
  encodeWord layout.version ++
    (layout.inputCount.encode layout.inputs.length ++
      layout.inputs.flatMap fun x => x.2.encodeAs x.1) ++
    (layout.outputCount.encode layout.outputs.length ++
      layout.outputs.flatMap fun x => x.2.encodeAs x.1) ++
    encodeWord layout.lockTime

/-- The CompactSize numbers in the order in which they are written, each with its form. -/
def numbers : List (Form × Nat) :=
  (layout.inputCount, layout.inputs.length) ::
    layout.inputs.map (fun x => (x.1, x.2.script.length)) ++
  (layout.outputCount, layout.outputs.length) ::
    layout.outputs.map (fun x => (x.1, x.2.script.length))

/-- Each form holds its number. -/
def Valid : Prop := ∀ x ∈ layout.numbers, x.1.Holds x.2

variable {layout}

theorem forall_numbers_iff {P : Form → Nat → Prop} :
    (∀ x ∈ layout.numbers, P x.1 x.2) ↔
      (P layout.inputCount layout.inputs.length ∧
        ∀ x ∈ layout.inputs, P x.1 x.2.script.length) ∧
      P layout.outputCount layout.outputs.length ∧
        ∀ x ∈ layout.outputs, P x.1 x.2.script.length := by
  rw [numbers, List.forall_mem_append, List.forall_mem_cons, List.forall_mem_cons,
    List.forall_mem_map, List.forall_mem_map]

/-! ## The layout that is written -/

/-- The layout of shortest forms. -/
def ofTransaction (tx : Transaction) : Layout where
  version := tx.version
  inputCount := .shortest tx.inputs.length
  inputs := tx.inputs.map fun input => (.shortest input.script.length, input)
  outputCount := .shortest tx.outputs.length
  outputs := tx.outputs.map fun output => (.shortest output.script.length, output)
  lockTime := tx.lockTime

theorem transaction_ofTransaction (tx : Transaction) : (ofTransaction tx).transaction = tx := by
  simp [transaction, ofTransaction, Function.comp_def]

theorem bytes_ofTransaction (tx : Transaction) : (ofTransaction tx).bytes = tx.encode := by
  simp only [bytes, ofTransaction, encode, List.length_map, List.flatMap_map,
    CompactSize.encode_eq, ← Input.encode_eq, ← Output.encode_eq]

theorem map_shortest {α : Type} {script : α → Bytes} {xs : List (Form × α)}
    (h : ∀ x ∈ xs, x.1 = Form.shortest (script x.2).length) :
    (xs.map Prod.snd).map (fun a => (Form.shortest (script a).length, a)) = xs := by
  have hsame : ∀ x ∈ xs, (Form.shortest (script x.2).length, x.2) = x :=
    fun x hx => Prod.ext (h x hx).symm rfl
  rw [List.map_map]
  exact (List.map_congr_left hsame).trans (List.map_id' xs)

/-- Only the layout that is written has shortest forms alone. -/
theorem eq_ofTransaction (h : ∀ x ∈ layout.numbers, x.1 = Form.shortest x.2) :
    ofTransaction layout.transaction = layout := by
  obtain ⟨⟨hinputCount, hinputs⟩, houtputCount, houtputs⟩ :=
    (forall_numbers_iff (P := fun form n => form = Form.shortest n)).mp h
  have hin := map_shortest hinputs
  have hout := map_shortest houtputs
  obtain ⟨version, inputCount, inputs, outputCount, outputs, lockTime⟩ := layout
  simp only [ofTransaction, transaction, List.length_map, hin, hout]
  rw [← hinputCount, ← houtputCount]

/-! ## Lengths -/

theorem length_encodeAs_input {form : Form} {input : Input} (h : form.Holds input.script.length) :
    (input.encodeAs form).length = input.encode.length + form.excess input.script.length := by
  simp only [Input.encodeAs, Input.encode, List.length_append, Form.length_prefixed h]
  omega

theorem length_encodeAs_output {form : Form} {output : Output}
    (h : form.Holds output.script.length) :
    (output.encodeAs form).length = output.encode.length + form.excess output.script.length := by
  simp only [Output.encodeAs, Output.encode, List.length_append, Form.length_prefixed h]
  omega

theorem length_flatMap {α : Type} {encodeAs : Form → α → Bytes} {encode script : α → Bytes}
    {xs : List (Form × α)} (h : ∀ x ∈ xs,
      (encodeAs x.1 x.2).length = (encode x.2).length + x.1.excess (script x.2).length) :
    (xs.flatMap fun x => encodeAs x.1 x.2).length =
      ((xs.map Prod.snd).flatMap encode).length +
        (xs.map fun x => x.1.excess (script x.2).length).sum := by
  induction xs with
  | nil => rfl
  | cons x xs ih =>
    obtain ⟨hx, hxs⟩ := List.forall_mem_cons.mp h
    simp only [List.flatMap_cons, List.map_cons, List.sum_cons, List.length_append, ih hxs, hx]
    omega

/-- **A layout is longer** than what is written by the excess of each form. -/
theorem length_bytes (h : layout.Valid) :
    layout.bytes.length =
      layout.transaction.encode.length + (layout.numbers.map fun x => x.1.excess x.2).sum := by
  obtain ⟨⟨hinputCount, hinputs⟩, houtputCount, houtputs⟩ := forall_numbers_iff.mp h
  have hin := length_flatMap fun x hx => length_encodeAs_input (hinputs x hx)
  have hout := length_flatMap fun x hx => length_encodeAs_output (houtputs x hx)
  have hinputWidth := Form.width_eq hinputCount
  have houtputWidth := Form.width_eq houtputCount
  simp only [bytes, numbers, encode, transaction, encodeWord, List.length_append, hin, hout,
    Form.length_encode, CompactSize.length_encode_eq, List.length_map, List.map_append,
    List.map_cons, List.map_map, Function.comp_def, List.sum_append_nat, List.sum_cons]
  omega

/-- **Only shortest forms** make a layout as short as what is written. -/
theorem length_bytes_eq_iff (h : layout.Valid) :
    layout.transaction.encode.length = layout.bytes.length ↔
      ∀ x ∈ layout.numbers, x.1 = Form.shortest x.2 := by
  rw [length_bytes h, Nat.left_eq_add, List.sum_eq_zero_iff_forall_eq_nat, List.forall_mem_map]
  exact forall₂_congr fun x hx => Form.excess_eq_zero_iff (h x hx)

/-! ## Reading -/

open Decoder

theorem reads_countUpTo {form : Form} {n limit : Nat} (h : form.Holds n) (hle : n ≤ limit) :
    (countUpTo limit).Reads (form.encode n) n := by
  refine (reads_count h).bind_nil ?_
  rw [if_neg (Nat.not_lt.mpr hle)]
  exact reads_pure n

theorem takes_countUpTo (limit : Nat) :
    (countUpTo limit).Takes fun n bytes =>
      n ≤ limit ∧ ∃ form : Form, form.Holds n ∧ bytes = form.encode n := by
  intro r n r' h
  obtain ⟨number, r₁, hcount, h⟩ := apply_bind_eq_ok.mp h
  split at h
  · cases h
  · next hle =>
    cases h
    obtain ⟨bytes, hbytes, hpasses⟩ := takes_count hcount
    exact ⟨bytes, ⟨Nat.le_of_not_lt hle, hbytes⟩, hpasses⟩

/-- A layout that the decoder accepts: it has inputs, and no more of anything than memory holds. -/
structure Readable (layout : Layout) : Prop where
  valid : layout.Valid
  inputs_ne_nil : layout.inputs ≠ []
  inputs_le : layout.inputs.length ≤ Input.maxCount
  outputs_le : layout.outputs.length ≤ Output.maxCount

/-- **A readable layout is read.** -/
theorem reads_decoder (h : layout.Readable) : decoder.Reads layout.bytes layout.transaction := by
  obtain ⟨⟨hinputCount, hinputs⟩, houtputCount, houtputs⟩ := forall_numbers_iff.mp h.valid
  have hne : layout.inputs.length ≠ 0 := mt List.length_eq_zero_iff.mp h.inputs_ne_nil
  simp only [bytes, List.append_assoc]
  refine (reads_word layout.version).bind ((reads_countUpTo hinputCount h.inputs_le).bind ?_)
  rw [if_neg hne]
  refine (reads_many fun x hx => reads_input (hinputs x hx)).bind
    ((reads_countUpTo houtputCount h.outputs_le).bind
      ((reads_many fun x hx => reads_output (houtputs x hx)).bind ?_))
  exact (reads_word layout.lockTime).bind_nil (reads_pure layout.transaction)

/-- **Nothing else is read.** -/
theorem takes_decoder :
    decoder.Takes fun tx bytes =>
      ∃ layout : Layout, layout.Readable ∧ layout.transaction = tx ∧ layout.bytes = bytes := by
  intro r tx r' h
  obtain ⟨version, r₁, hversion, h⟩ := apply_bind_eq_ok.mp h
  obtain ⟨inputCount, r₂, hinputCount, h⟩ := apply_bind_eq_ok.mp h
  split at h
  · cases h
  next hne =>
  obtain ⟨inputs, r₃, hinputs, h⟩ := apply_bind_eq_ok.mp h
  obtain ⟨outputCount, r₄, houtputCount, h⟩ := apply_bind_eq_ok.mp h
  obtain ⟨outputs, r₅, houtputs, h⟩ := apply_bind_eq_ok.mp h
  obtain ⟨lockTime, r₆, hlockTime, h⟩ := apply_bind_eq_ok.mp h
  cases h
  obtain ⟨_, rfl, hversion⟩ := takes_word hversion
  obtain ⟨_, ⟨hinputLe, inputForm, hinputForm, rfl⟩, hinputCount⟩ := takes_countUpTo _ hinputCount
  obtain ⟨_, ⟨inputs, hinputForms, rfl, rfl, rfl⟩, hinputs⟩ := takes_many takes_input _ hinputs
  obtain ⟨_, ⟨houtputLe, outputForm, houtputForm, rfl⟩, houtputCount⟩ :=
    takes_countUpTo _ houtputCount
  obtain ⟨_, ⟨outputs, houtputForms, rfl, rfl, rfl⟩, houtputs⟩ := takes_many takes_output _ houtputs
  obtain ⟨_, rfl, hlockTime⟩ := takes_word hlockTime
  let layout : Layout := ⟨version, inputForm, inputs, outputForm, outputs, lockTime⟩
  have hvalid : layout.Valid :=
    forall_numbers_iff.mpr ⟨⟨hinputForm, hinputForms⟩, houtputForm, houtputForms⟩
  exact ⟨_, ⟨layout, ⟨hvalid, mt List.length_eq_zero_iff.mpr hne, hinputLe, houtputLe⟩, rfl, rfl⟩,
    ((hversion.trans (hinputCount.trans hinputs)).trans (houtputCount.trans houtputs)).trans
      hlockTime⟩

/-- Without inputs no transaction is read. -/
theorem apply_decoder_of_no_inputs (hvalid : layout.Valid) (hnone : layout.inputs.length = 0) :
    ∃ r, decoder.apply (Reader.ofBytes layout.bytes) = (.error .noInputs, r) := by
  obtain ⟨⟨hform, -⟩, -⟩ := forall_numbers_iff.mp hvalid
  rw [hnone] at hform
  have hword := reads_word layout.version
  have hcount := reads_countUpTo hform (Nat.zero_le Input.maxCount)
  simp only [bytes, List.append_assoc, hnone, Reader.ofBytes]
  rw [decoder, apply_bind, hword]
  simp only [apply_bind, hcount _ _, if_pos]
  exact ⟨_, rfl⟩

end Layout

/-! ## Bytes of a transaction -/

/-- The bytes are those of the transaction, each number in a form that holds it, and no more. -/
def WrittenAs (tx : Transaction) (data : Bytes) : Prop :=
  ∃ layout : Layout, layout.Valid ∧ layout.transaction = tx ∧ layout.bytes = data

theorem WrittenAs.ne_nil {tx : Transaction} {data : Bytes} (h : tx.WrittenAs data) : data ≠ [] := by
  rintro rfl
  obtain ⟨layout, -, -, hbytes⟩ := h
  have hlength := congrArg List.length hbytes
  simp [Layout.bytes, encodeWord] at hlength

end SpendScript.Transaction
