import SpendScript.Proofs.Wire.Layout

/-!
# Bytes cut short

What a decoder finds depends on the bytes that it takes and on nothing behind them. It needs all of
them, too: wherever they are cut, it runs past the end instead of finding something shorter. Both
carry over from decoders to their compositions, so they hold of the decoder of transactions whatever
forms its numbers have.

* `Decoder.Needs`, **`Decoder.Needs.bind`**: bytes that cannot be cut;
* `Decoder.Local`, **`Decoder.Local.bind`**: decoders that take such bytes only;
* `local_take`, `local_varInt`, `local_varBytes`, `local_many`, `local_input`, `local_output`,
  `Transaction.local_decoder`: the decoders of the format;
* **`Transaction.decoder_cut`**: transactions that are cut short or followed by something else.
-/

namespace SpendScript

namespace Decoder

variable {α β : Type}

/-! ## Bytes that cannot be cut -/

/-- Wherever the bytes are cut, the decoder asks for a piece that ends behind the cut. -/
def Needs (d : Decoder α) (bytes : Bytes) : Prop :=
  ∀ position k, k < bytes.length → ∃ length place r,
    d.apply ⟨position, bytes.take k⟩ = (.error (.pastEnd length place), r) ∧
      position + k < place + length

theorem needs_nil (d : Decoder α) : d.Needs [] := fun _ _ h => absurd h (Nat.not_lt_zero _)

theorem needs_take {bs : Bytes} {length : Nat} (h : bs.length = length) : (take length).Needs bs := by
  intro position k hk
  have hcut : (bs.take k).length < length := by
    rw [List.length_take]
    omega
  refine ⟨length, position, ⟨position, bs.take k⟩, ?_, by omega⟩
  rw [apply_take, if_pos hcut]

/-- **A cut falls into the first part or behind it.** -/
theorem Needs.bind {d : Decoder α} {f : α → Decoder β} {x y : Bytes} {a : α} (hd : d.Reads x a)
    (hx : d.Needs x) (hy : (f a).Needs y) : (d >>= f).Needs (x ++ y) := by
  intro position k hk
  rw [List.length_append] at hk
  rw [apply_bind]
  by_cases hcut : k < x.length
  · obtain ⟨length, place, r, hrun, hlt⟩ := hx position k hcut
    rw [List.take_append_of_le_length (Nat.le_of_lt hcut), hrun]
    exact ⟨length, place, r, rfl, hlt⟩
  · obtain ⟨n, rfl⟩ := Nat.exists_eq_add_of_le (Nat.le_of_not_lt hcut)
    obtain ⟨length, place, r, hrun, hlt⟩ := hy (position + x.length) n (by omega)
    rw [List.take_length_add_append, hd]
    exact ⟨length, place, r, hrun, by omega⟩

/-! ## Decoders that take such bytes only -/

/-- Whatever the decoder takes, it finds the same in these bytes wherever they stand, and nothing in
fewer of them. -/
def Local (d : Decoder α) : Prop := d.Takes fun a bytes => d.Reads bytes a ∧ d.Needs bytes

theorem local_pure (a : α) : (pure a : Decoder α).Local := by
  rintro r _ _ ⟨rfl, rfl⟩
  exact ⟨[], ⟨reads_pure a, needs_nil _⟩, r.passes_nil⟩

theorem local_take (length : Nat) : (take length).Local := by
  intro r bs r' h
  obtain ⟨_, ⟨hlength, rfl⟩, hpasses⟩ := takes_take length h
  exact ⟨_, ⟨reads_take hlength, needs_take hlength⟩, hpasses⟩

theorem local_liftM (e : Except WireError α) : (liftM e : Decoder α).Local := by
  cases e with
  | ok a => exact local_pure a
  | error e => exact fun _ _ _ h => by cases h

/-- **Decoders one after the other.** -/
theorem Local.bind {d : Decoder α} {f : α → Decoder β} (hd : d.Local) (hf : ∀ a, (f a).Local) :
    (d >>= f).Local := by
  intro r b r'' h
  obtain ⟨a, r', hfirst, hrest⟩ := apply_bind_eq_ok.mp h
  obtain ⟨x, ⟨hreads, hneeds⟩, hx⟩ := hd hfirst
  obtain ⟨y, ⟨hreads', hneeds'⟩, hy⟩ := hf a hrest
  exact ⟨x ++ y, ⟨hreads.bind hreads', Needs.bind hreads hneeds hneeds'⟩, hx.trans hy⟩

theorem Local.map {d : Decoder α} (hd : d.Local) (f : α → β) :
    (do return f (← d) : Decoder β).Local := hd.bind fun a => local_pure (f a)

theorem local_ite {p : Prop} [Decidable p] {d d' : Decoder α} (hd : d.Local) (hd' : d'.Local) :
    (if p then d else d').Local := by
  split
  · exact hd
  · exact hd'

theorem local_many {d : Decoder α} (hd : d.Local) (number : Nat) : (d.many number).Local := by
  induction number with
  | zero => exact local_pure []
  | succ number ih => exact hd.bind fun a => ih.map (a :: ·)

/-! ## The decoders of the format -/

theorem local_fixed (t : IntType) : (fixed t).Local := (local_take t.size).map t.ofBytes

theorem local_narrow (source target : IntType) :
    (do target.narrow (← fixed source) : Decoder target.Value).Local :=
  (local_fixed source).bind fun v => local_liftM (target.narrow v)

theorem local_varInt (t : IntType) : (varInt t).Local :=
  (local_fixed .u8).bind fun first =>
    local_ite (local_narrow .u16 t) (local_ite (local_narrow .u32 t)
      (local_ite (local_narrow .u64 t) (local_liftM (t.narrow first))))

theorem local_count : count.Local := (local_varInt .u64).map fun v => v.val.toNat

theorem local_varBytes : varBytes.Local := local_count.bind local_take

theorem local_countUpTo (limit : Nat) : (countUpTo limit).Local :=
  local_count.bind fun number =>
    local_ite (local_liftM (.error (.tooMany number))) (local_pure number)

theorem local_word : word.Local := (local_take 4).map fun bs => UInt32.ofNat bs.toNatLE

theorem local_amount : amount.Local :=
  (local_take 8).map fun bs => Int64.ofInt (IntType.i64.ofBytes bs).val

theorem local_hash256 : hash256.Local :=
  (local_take 32).map fun bs => (Digest.ofBytes? bs).getD Digest.zero

theorem local_outPoint : OutPoint.decoder.Local :=
  local_hash256.bind fun hash => local_word.map (OutPoint.mk hash)

theorem local_input : Input.decoder.Local :=
  local_outPoint.bind fun previous => local_varBytes.bind fun script =>
    local_word.map (Input.mk previous script)

theorem local_output : Output.decoder.Local :=
  local_amount.bind fun value => local_varBytes.map (Output.mk value)

end Decoder

namespace Transaction

open Decoder

theorem local_decoder : decoder.Local :=
  local_word.bind fun version => (local_countUpTo Input.maxCount).bind fun inputCount =>
    local_ite (local_liftM (.error .noInputs)) <|
      (local_many local_input inputCount).bind fun inputs =>
        (local_countUpTo Output.maxCount).bind fun outputCount =>
          (local_many local_output outputCount).bind fun outputs =>
            local_word.map (Transaction.mk version inputs outputs)

/-- **A transaction is found in the bytes that it takes**, whatever follows them and wherever they
stand. If they are cut anywhere, a read runs past the end, and no shorter transaction is found and
no other complaint made. -/
theorem decoder_cut {position : Nat} {b : Bytes} {tx : Transaction} {r' : Reader}
    (h : decoder.apply ⟨position, b⟩ = (.ok tx, r')) :
    ∃ k, k ≤ b.length ∧ r' = ⟨position + k, b.drop k⟩ ∧
      (∀ place b', b'.take k = b.take k →
        decoder.apply ⟨place, b'⟩ = (.ok tx, ⟨place + k, b'.drop k⟩)) ∧
      ∀ place, ∀ j < k, ∃ length offset r,
        decoder.apply ⟨place, b.take j⟩ = (.error (.pastEnd length offset), r) ∧
          (WireError.pastEnd length offset).failure.kind = .outOfRange ∧
          place + j < offset + length := by
  obtain ⟨bytes, ⟨hreads, hneeds⟩, hrest, hposition⟩ := local_decoder h
  replace hrest : b = bytes ++ r'.rest := hrest
  have hfront : b.take bytes.length = bytes := by rw [hrest, List.take_left' rfl]
  refine ⟨bytes.length, ?_, ?_, fun place b' hb' => ?_, fun place j hj => ?_⟩
  · rw [hrest, List.length_append]
    exact Nat.le_add_right _ _
  · rw [hrest, List.drop_left' rfl, ← hposition]
  · have hsplit : bytes ++ b'.drop bytes.length = b' := by
      rw [hfront] at hb'
      calc bytes ++ b'.drop bytes.length
          = b'.take bytes.length ++ b'.drop bytes.length := by rw [hb']
        _ = b' := List.take_append_drop bytes.length b'
    have hrun := hreads place (b'.drop bytes.length)
    rwa [hsplit] at hrun
  · obtain ⟨length, offset, r, hrun, hlt⟩ := hneeds place j hj
    refine ⟨length, offset, r, ?_, rfl, hlt⟩
    rwa [hrest, List.take_append_of_le_length (Nat.le_of_lt hj)]

/-- A transaction whose number of inputs takes three bytes, with empty scripts: other bytes may
follow it, and a cut inside that number is noticed. -/
theorem decoder_cut_long_count :
    let layout : Layout := ⟨1, .two, [(.one, ⟨OutPoint.null, [], 7⟩)], .one, [(.one, ⟨0, []⟩)], 0⟩
    let tx := layout.transaction
    decoder.apply ⟨0, layout.bytes ++ [0xFD]⟩ = (.ok tx, ⟨layout.bytes.length, [0xFD]⟩) ∧
      decoder.apply ⟨9, layout.bytes⟩ = (.ok tx, ⟨9 + layout.bytes.length, []⟩) ∧
      ∃ length offset r, decoder.apply ⟨0, (layout.bytes ++ [0xFD]).take 5⟩ =
        (.error (.pastEnd length offset), r) := by
  intro layout tx
  have hvalid : layout.Valid := by simp [layout, Layout.Valid, Layout.numbers, CompactSize.Form.Holds]
  have hreadable : layout.Readable := ⟨hvalid, List.cons_ne_nil _ _, by decide, by decide⟩
  have hread := Layout.reads_decoder hreadable 0 [0xFD]
  rw [Nat.zero_add] at hread
  obtain ⟨k, -, hend, hsame, hcut⟩ := decoder_cut hread
  obtain rfl : layout.bytes.length = k := by
    have hk := congrArg Reader.position hend
    rwa [Nat.zero_add] at hk
  have hagain := hsame 9 layout.bytes (by rw [List.take_left' rfl, List.take_length])
  rw [List.drop_length] at hagain
  obtain ⟨length, offset, r, hrun, -, -⟩ := hcut 0 5 (by decide)
  exact ⟨hread, hagain, length, offset, r, hrun⟩

end Transaction

end SpendScript
