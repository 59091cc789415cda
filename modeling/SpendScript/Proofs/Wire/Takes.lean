import SpendScript.Proofs.Wire.Reads

/-!
# What a decoder takes

A decoder that succeeds has moved the reader over some bytes. What these bytes can be, given the
value that was found in them, is the converse of reading what was written: a number, for instance,
may stand there in any of its forms.

* `Reader.Passes`: the bytes that lie between two places;
* `Decoder.Takes`: what a decoder passes when it succeeds; `apply_bind_eq_ok`: step by step;
* `takes_take`, `takes_fixed`, `takes_eight`, **`takes_varInt`**, `takes_varBytes`,
  **`takes_many`**.
-/

namespace SpendScript

/-- The reader `r'` is behind the bytes that come next in `r`. -/
structure Reader.Passes (r : Reader) (bytes : Bytes) (r' : Reader) : Prop where
  rest : r.rest = bytes ++ r'.rest
  position : r'.position = r.position + bytes.length

theorem Reader.passes_nil (r : Reader) : r.Passes [] r := ⟨rfl, rfl⟩

theorem Reader.Passes.trans {r r' r'' : Reader} {x y : Bytes} (hx : r.Passes x r')
    (hy : r'.Passes y r'') : r.Passes (x ++ y) r'' where
  rest := by rw [hx.rest, hy.rest, List.append_assoc]
  position := by rw [hy.position, hx.position, List.length_append, Nat.add_assoc]

namespace Decoder

variable {α β : Type}

/-! ## Successful runs -/

theorem apply_bind_eq_ok {d : Decoder α} {f : α → Decoder β} {r r'' : Reader} {b : β} :
    (d >>= f).apply r = (.ok b, r'') ↔
      ∃ a r', d.apply r = (.ok a, r') ∧ (f a).apply r' = (.ok b, r'') := Stateful.apply_bind_eq_ok

theorem apply_liftM (e : Except WireError α) (r : Reader) :
    (liftM e : Decoder α).apply r = (e, r) := by cases e <;> rfl

/-- Whenever the decoder succeeds, it passes bytes that may stand for the value. -/
def Takes (d : Decoder α) (Stands : α → Bytes → Prop) : Prop :=
  ∀ ⦃r a r'⦄, d.apply r = (.ok a, r') → ∃ bytes, Stands a bytes ∧ r.Passes bytes r'

theorem Takes.map {d : Decoder α} {Stands : α → Bytes → Prop} {Stands' : β → Bytes → Prop}
    (hd : d.Takes Stands) (f : α → β) (h : ∀ a bytes, Stands a bytes → Stands' (f a) bytes) :
    (do return f (← d) : Decoder β).Takes Stands' := by
  intro r b r' hrun
  obtain ⟨a, r₁, hfirst, hrun⟩ := apply_bind_eq_ok.mp hrun
  cases hrun
  obtain ⟨bytes, hstands, hpasses⟩ := hd hfirst
  exact ⟨bytes, h a bytes hstands, hpasses⟩

theorem takes_take (length : Nat) :
    (take length).Takes fun bs bytes => bs.length = length ∧ bytes = bs := by
  intro r bs r' h
  rw [apply_take] at h
  split at h
  · cases h
  · next hlength =>
    cases h
    refine ⟨_, ⟨?_, rfl⟩, (List.take_append_drop length r.rest).symm, ?_⟩
    · rw [List.length_take]
      omega
    · change r.position + length = r.position + (r.rest.take length).length
      rw [List.length_take]
      omega

theorem takes_byte : byte.Takes fun b bytes => bytes = [b] := by
  refine (takes_take 1).map (·.headD 0) ?_
  rintro _ bs ⟨hlength, rfl⟩
  obtain ⟨b, rfl⟩ := List.length_eq_one_iff.mp hlength
  rfl

/-- **A list of things**, each of them written in one of the ways it can be. -/
theorem takes_many {d : Decoder α} {Valid : β → α → Prop} {encode : β → α → Bytes}
    (h : d.Takes fun a bytes => ∃ way, Valid way a ∧ bytes = encode way a) (number : Nat) :
    (d.many number).Takes fun as bytes =>
      ∃ xs : List (β × α), (∀ x ∈ xs, Valid x.1 x.2) ∧ xs.length = number ∧
        xs.map Prod.snd = as ∧ bytes = xs.flatMap fun x => encode x.1 x.2 := by
  induction number with
  | zero =>
    rintro r _ _ ⟨rfl, rfl⟩
    exact ⟨[], ⟨[], by simp, rfl, rfl, rfl⟩, r.passes_nil⟩
  | succ number ih =>
    intro r as r' hrun
    obtain ⟨a, r₁, hfirst, hrun⟩ := apply_bind_eq_ok.mp hrun
    obtain ⟨as', r₂, hmany, hrun⟩ := apply_bind_eq_ok.mp hrun
    cases hrun
    obtain ⟨_, ⟨way, hway, rfl⟩, hfirst⟩ := h hfirst
    obtain ⟨_, ⟨xs, hxs, rfl, rfl, rfl⟩, hmany⟩ := ih hmany
    exact ⟨_, ⟨(way, a) :: xs, List.forall_mem_cons.mpr ⟨hway, hxs⟩, rfl, rfl, rfl⟩,
      hfirst.trans hmany⟩

/-! ## Integers -/

open CompactSize (Form)

theorem takes_fixed (t : IntType) : (fixed t).Takes fun v bytes => bytes = t.toBytes v :=
  (takes_take t.size).map t.ofBytes fun _ _ ⟨hlength, hbytes⟩ =>
    hbytes.trans (IntType.toBytes_ofBytes hlength).symm

theorem eq_of_apply_narrow {source target : IntType} {v : source.Value} {v' : target.Value}
    {r r' : Reader} (h : (liftM (target.narrow v) : Decoder target.Value).apply r = (.ok v', r')) :
    v'.val = v.val ∧ r' = r := by
  rw [apply_liftM, IntType.narrow] at h
  split at h
  · cases h
    exact ⟨rfl, rfl⟩
  · cases h

/-- An integer of one type, narrowed to another. -/
theorem takes_narrow_value (source target : IntType) :
    (do target.narrow (← fixed source) : Decoder target.Value).Takes fun v bytes =>
      ∃ v' : source.Value, v.val = v'.val ∧ bytes = source.toBytes v' := by
  intro r v r' h
  obtain ⟨v', r₁, hfixed, h⟩ := apply_bind_eq_ok.mp h
  obtain ⟨hv, rfl⟩ := eq_of_apply_narrow h
  obtain ⟨_, rfl, hfixed⟩ := takes_fixed source hfixed
  exact ⟨_, ⟨v', hv, rfl⟩, hfixed⟩

/-- An unsigned integer of one type, narrowed to another. -/
theorem takes_narrow {source target : IntType} (hs : source.signed = false) :
    (do target.narrow (← fixed source) : Decoder target.Value).Takes fun v bytes =>
      ∃ n : Nat, n < source.modulus ∧ v.val = n ∧ bytes = Bytes.ofNatLE source.size n := by
  intro r v r' h
  obtain ⟨_, ⟨v', hv, rfl⟩, hpasses⟩ := takes_narrow_value source target h
  obtain ⟨n, hn, hv', hbytes⟩ := IntType.exists_natCast hs v'
  exact ⟨_, ⟨n, hn, hv.trans hv', hbytes⟩, hpasses⟩

theorem takes_eight (t : IntType) :
    (eight t).Takes fun v bytes => bytes = Bytes.ofNatLE 8 (IntType.u64.bits v.val) := by
  intro r v r' h
  unfold eight at h
  split at h
  · obtain ⟨_, ⟨v', hv, rfl⟩, hpasses⟩ := takes_narrow_value .i64 t h
    have hbits : IntType.u64.bits v.val = IntType.i64.bits v'.val := by rw [hv, IntType.bits_i64]
    exact ⟨_, congrArg (Bytes.ofNatLE 8) hbits.symm, hpasses⟩
  · obtain ⟨_, ⟨v', hv, rfl⟩, hpasses⟩ := takes_narrow_value .u64 t h
    have hbits : IntType.u64.bits v.val = IntType.u64.bits v'.val := congrArg _ hv
    exact ⟨_, congrArg (Bytes.ofNatLE 8) hbits.symm, hpasses⟩

/-- **A CompactSize number** stands in one of the forms that hold it. -/
theorem takes_varInt (t : IntType) :
    (varInt t).Takes fun v bytes =>
      ∃ (form : Form) (n : Nat), form.Holds n ∧ v.val = n ∧ bytes = form.encode n := by
  intro r v r' h
  obtain ⟨first, r₁, hfixed, h⟩ := apply_bind_eq_ok.mp h
  obtain ⟨_, rfl, hfixed⟩ := takes_fixed .u8 hfixed
  obtain ⟨mark, hmark, hfirst, hbytes⟩ := IntType.exists_natCast rfl first
  rw [hbytes] at hfixed
  split at h
  · next hfd =>
    obtain rfl : mark = 0xFD := by omega
    obtain ⟨_, ⟨n, hn, hv, rfl⟩, h⟩ := takes_narrow rfl h
    exact ⟨_, ⟨.two, n, hn, hv, rfl⟩, hfixed.trans h⟩
  split at h
  · next hfe =>
    obtain rfl : mark = 0xFE := by omega
    obtain ⟨_, ⟨n, hn, hv, rfl⟩, h⟩ := takes_narrow rfl h
    exact ⟨_, ⟨.four, n, hn, hv, rfl⟩, hfixed.trans h⟩
  split at h
  · next hff =>
    obtain rfl : mark = 0xFF := by omega
    obtain ⟨_, ⟨n, hn, hv, rfl⟩, h⟩ := takes_narrow rfl h
    exact ⟨_, ⟨.eight, n, hn, hv, rfl⟩, hfixed.trans h⟩
  · obtain ⟨hv, rfl⟩ := eq_of_apply_narrow h
    have hone : mark < 0xFD := by
      change mark < 256 at hmark
      omega
    exact ⟨_, ⟨.one, mark, hone, hv.trans hfirst, rfl⟩, hfixed⟩

theorem takes_count :
    count.Takes fun n bytes => ∃ form : Form, form.Holds n ∧ bytes = form.encode n := by
  refine (takes_varInt .u64).map (fun v => v.val.toNat) ?_
  rintro v _ ⟨form, n, hform, hv, rfl⟩
  obtain rfl : v.val.toNat = n := by omega
  exact ⟨form, hform, rfl⟩

/-- **Bytes after their number**, which stands in one of its forms. -/
theorem takes_varBytes :
    varBytes.Takes fun bs bytes =>
      ∃ form : Form, form.Holds bs.length ∧ bytes = form.prefixed bs := by
  intro r bs r' h
  obtain ⟨n, r₁, hcount, h⟩ := apply_bind_eq_ok.mp h
  obtain ⟨_, ⟨form, hform, rfl⟩, hcount⟩ := takes_count hcount
  obtain ⟨_, ⟨rfl, rfl⟩, hpasses⟩ := takes_take n h
  exact ⟨_, ⟨form, hform, rfl⟩, hcount.trans hpasses⟩

end Decoder

end SpendScript
