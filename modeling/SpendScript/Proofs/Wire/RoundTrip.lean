import SpendScript.Proofs.Wire.Layout

/-!
# Round trips of transactions

What is written is read back, up to where it ends. What is read need not be what would be written,
since numbers are read in forms longer than needed, but writing it again only takes away the bytes
too many, and then changes nothing more.

* `Layout.readable_ofTransaction`: what is written can be read, if there are inputs;
* **`Transaction.decoder_encode_append`**: from transactions to bytes and back;
* **`Transaction.encode_decoded`**: from bytes to transactions and back.
-/

namespace SpendScript.Transaction

open CompactSize (Form)

theorem Layout.readable_ofTransaction {tx : Transaction} (hne : tx.inputs ≠ [])
    (hinputs : tx.inputs.length ≤ Input.maxCount) (houtputs : tx.outputs.length ≤ Output.maxCount)
    (hinputScripts : ∀ input ∈ tx.inputs, input.script.length < 0x10000000000000000)
    (houtputScripts : ∀ output ∈ tx.outputs, output.script.length < 0x10000000000000000) :
    (Layout.ofTransaction tx).Readable where
  valid := by
    refine forall_numbers_iff.mpr ⟨⟨?_, ?_⟩, ?_, ?_⟩
    · rw [ofTransaction, List.length_map]
      exact Form.holds_shortest (Nat.lt_of_le_of_lt hinputs (by decide))
    · intro x hx
      obtain ⟨input, hinput, rfl⟩ := List.mem_map.mp hx
      exact Form.holds_shortest (hinputScripts input hinput)
    · rw [ofTransaction, List.length_map]
      exact Form.holds_shortest (Nat.lt_of_le_of_lt houtputs (by decide))
    · intro x hx
      obtain ⟨output, houtput, rfl⟩ := List.mem_map.mp hx
      exact Form.holds_shortest (houtputScripts output houtput)
  inputs_ne_nil := by
    rw [ofTransaction, Ne, List.map_eq_nil_iff]
    exact hne
  inputs_le := by
    rw [ofTransaction, List.length_map]
    exact hinputs
  outputs_le := by
    rw [ofTransaction, List.length_map]
    exact houtputs

/-- Writing what was read gives a layout that can be read again. -/
theorem Layout.Readable.written {layout : Layout} (h : layout.Readable) :
    (Layout.ofTransaction layout.transaction).Readable := by
  obtain ⟨⟨-, hinputs⟩, -, houtputs⟩ := forall_numbers_iff.mp h.valid
  refine readable_ofTransaction ?_ ?_ ?_ ?_ ?_
  · rw [transaction, Ne, List.map_eq_nil_iff]
    exact h.inputs_ne_nil
  · rw [transaction, List.length_map]
    exact h.inputs_le
  · rw [transaction, List.length_map]
    exact h.outputs_le
  · intro input hinput
    obtain ⟨x, hx, rfl⟩ := List.mem_map.mp hinput
    exact Form.lt_of_holds (hinputs x hx)
  · intro output houtput
    obtain ⟨x, hx, rfl⟩ := List.mem_map.mp houtput
    exact Form.lt_of_holds (houtputs x hx)

/-- A transaction with a readable layout is read from what is written. -/
theorem reads_encode {tx : Transaction} (h : (Layout.ofTransaction tx).Readable) :
    decoder.Reads tx.encode tx := by
  have hreads := Layout.reads_decoder h
  rwa [Layout.bytes_ofTransaction, Layout.transaction_ofTransaction] at hreads

/-- **From transactions to bytes and back.** A transaction with inputs is read back from its bytes,
whatever follows them, and the reader stops at what follows. No two transactions, with inputs or
without, have the same bytes. -/
theorem decoder_encode_append :
    (∀ tx : Transaction, tx.InMemory → tx.inputs ≠ [] → ∀ position t,
      decoder.apply ⟨position, tx.encode ++ t⟩ = (.ok tx, ⟨position + tx.encode.length, t⟩)) ∧
    ∀ a b : Transaction, a.InMemory → b.InMemory → a.encode = b.encode → a = b := by
  constructor
  · intro tx htx hne
    refine reads_encode (Layout.readable_ofTransaction hne htx.inputs htx.outputs ?_ ?_)
    · exact fun input hinput => Nat.lt_trans (htx.inputScripts input hinput) (by decide)
    · exact fun output houtput => Nat.lt_trans (htx.outputScripts output houtput) (by decide)
  · intro a b ha hb h
    exact (encode_append_inj ha hb (congrArg (· ++ []) h)).1

/-- An amount below zero is read back, and tells two transactions without inputs apart. -/
theorem decoder_encode_append_negative :
    let tx : Transaction := ⟨2, [⟨OutPoint.null, [0x51], 7⟩], [⟨-1, []⟩], 0⟩
    let bare (value : Int64) : Transaction := ⟨1, [], [⟨value, [0x6a]⟩], 9⟩
    decoder.apply ⟨3, tx.encode ++ [0xFD]⟩ = (.ok tx, ⟨3 + tx.encode.length, [0xFD]⟩) ∧
      (bare (-1)).encode ≠ (bare 1).encode := by
  intro tx bare
  have htx : tx.InMemory := ⟨by decide, by decide, by decide, by decide⟩
  have hdebit : (bare (-1)).InMemory := ⟨by decide, by decide, by decide, by decide⟩
  have hcredit : (bare 1).InMemory := ⟨by decide, by decide, by decide, by decide⟩
  refine ⟨decoder_encode_append.1 tx htx (List.cons_ne_nil _ _) 3 [0xFD], fun h => ?_⟩
  have hsame := decoder_encode_append.2 _ _ hdebit hcredit h
  exact absurd (congrArg (fun tx => tx.outputs.map Output.value) hsame) (by decide)

/-- **From bytes to transactions and back.** If `tx` was read from `k` bytes, it is written in as
many bytes or fewer, and in these bytes exactly if their number is `k`, that is, if each number in
them had its shortest form. From what is written the same transaction is read again, to the end. -/
theorem encode_decoded {r r' : Reader} {tx : Transaction}
    (h : decoder.apply r = (.ok tx, r')) :
    ∃ (k : Nat) (layout : Layout),
      k ≤ r.rest.length ∧ r' = ⟨r.position + k, r.rest.drop k⟩ ∧
      layout.Valid ∧ layout.transaction = tx ∧ layout.bytes = r.rest.take k ∧
      tx.encode.length ≤ k ∧
      (tx.encode = r.rest.take k ↔ tx.encode.length = k) ∧
      (tx.encode.length = k ↔ ∀ x ∈ layout.numbers, x.1 = Form.shortest x.2) ∧
      decoder.apply (Reader.ofBytes tx.encode) = (.ok tx, ⟨tx.encode.length, []⟩) := by
  obtain ⟨_, ⟨layout, hreadable, rfl, rfl⟩, hrest, hposition⟩ := Layout.takes_decoder h
  have htake : r.rest.take layout.bytes.length = layout.bytes := by
    rw [hrest, List.take_left' rfl]
  have hshort := Layout.length_bytes_eq_iff hreadable.valid
  have hagain := reads_encode hreadable.written 0 []
  rw [List.append_nil, Nat.zero_add] at hagain
  refine ⟨layout.bytes.length, layout, ?_, ?_, hreadable.valid, rfl, htake.symm, ?_, ?_, hshort,
    hagain⟩
  · rw [hrest, List.length_append]
    exact Nat.le_add_right _ _
  · rw [← hposition, hrest, List.drop_left' rfl]
  · rw [Layout.length_bytes hreadable.valid]
    exact Nat.le_add_right _ _
  · rw [htake]
    constructor
    · exact congrArg List.length
    · intro hlength
      rw [← Layout.bytes_ofTransaction, Layout.eq_ofTransaction (hshort.mp hlength)]

/-- A transaction whose number of inputs takes three bytes is written again in fewer. -/
theorem encode_decoded_long_count :
    let layout : Layout := ⟨1, .two, [(.one, ⟨OutPoint.null, [0x51], 7⟩)], .one, [], 0⟩
    let tx := layout.transaction
    decoder.apply ⟨0, layout.bytes ++ [0xFD]⟩ = (.ok tx, ⟨layout.bytes.length, [0xFD]⟩) ∧
      tx.encode.length < layout.bytes.length ∧
      decoder.apply (Reader.ofBytes tx.encode) = (.ok tx, ⟨tx.encode.length, []⟩) := by
  intro layout tx
  have hvalid : layout.Valid := by simp [layout, Layout.Valid, Layout.numbers, Form.Holds]
  have hreadable : layout.Readable := ⟨hvalid, List.cons_ne_nil _ _, by decide, by decide⟩
  have hread := Layout.reads_decoder hreadable 0 [0xFD]
  rw [Nat.zero_add] at hread
  obtain ⟨_, _, -, -, -, -, -, -, -, -, hagain⟩ := encode_decoded hread
  exact ⟨hread, by decide, hagain⟩

end SpendScript.Transaction
