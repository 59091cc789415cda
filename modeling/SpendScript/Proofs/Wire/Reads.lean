import SpendScript.Proofs.Stateful
import SpendScript.Proofs.Wire.Forms
import SpendScript.Proofs.Wire.Integer

/-!
# Decoders that read what was written

A decoder reads bytes as a value if it finds the value at their front, whatever follows them, and
stops right behind them. Bytes that can be read so have an end that shows: two values whose bytes
begin the same stream are one.

* `Decoder.Reads`, `Decoder.reads_pure`, `Decoder.Reads.bind`;
* **`Decoder.Reads.inj`**: the end shows;
* `reads_take`, `reads_fixed`, `reads_eight`, **`reads_varInt`**, `reads_varBytes`, **`reads_many`**;
  numbers are read in each of their forms.
-/

namespace SpendScript

namespace Decoder

variable {α β : Type}

/-! ## Equations of decoders -/

@[simp] theorem apply_pure (a : α) (r : Reader) : (pure a : Decoder α).apply r = (.ok a, r) := rfl

theorem apply_bind (d : Decoder α) (f : α → Decoder β) (r : Reader) :
    (d >>= f).apply r =
      match d.apply r with
      | (.ok a, r') => (f a).apply r'
      | (.error e, r') => (.error e, r') := by
  rcases h : d.apply r with ⟨e | a, r'⟩
  · exact Stateful.apply_bind_of_error h
  · exact Stateful.apply_bind_of_ok h

theorem apply_take (length : Nat) (r : Reader) :
    (take length).apply r =
      if r.rest.length < length then (.error (.pastEnd length r.position), r)
      else (.ok (r.rest.take length), ⟨r.position + length, r.rest.drop length⟩) := by
  by_cases h : r.rest.length < length
  · have ht : (r.rest.take length).length < length := by simp; omega
    rw [if_pos h]
    exact if_pos ht
  · have ht : ¬ (r.rest.take length).length < length := by simp; omega
    rw [if_neg h]
    exact if_neg ht

/-! ## Reading -/

/-- The decoder finds `a` in `bytes`, whatever follows them, and stops behind them. -/
def Reads (d : Decoder α) (bytes : Bytes) (a : α) : Prop :=
  ∀ position rest, d.apply ⟨position, bytes ++ rest⟩ = (.ok a, ⟨position + bytes.length, rest⟩)

theorem reads_pure (a : α) : Reads (pure a) [] a := fun _ _ => rfl

theorem Reads.bind {d : Decoder α} {f : α → Decoder β} {x y : Bytes} {a : α} {b : β}
    (hd : d.Reads x a) (hf : (f a).Reads y b) : (d >>= f).Reads (x ++ y) b := by
  intro position rest
  rw [apply_bind, List.append_assoc, hd position (y ++ rest), List.length_append, ← Nat.add_assoc]
  exact hf (position + x.length) rest

theorem Reads.bind_nil {d : Decoder α} {f : α → Decoder β} {x : Bytes} {a : α} {b : β}
    (hd : d.Reads x a) (hf : (f a).Reads [] b) : (d >>= f).Reads x b := by
  have h := Reads.bind (f := f) hd hf
  rwa [List.append_nil] at h

/-- **The end of what is read shows.** -/
theorem Reads.inj {d : Decoder α} {x y s t : Bytes} {a b : α} (hx : d.Reads x a) (hy : d.Reads y b)
    (h : x ++ s = y ++ t) : a = b ∧ s = t := by
  have hs := hx 0 s
  rw [h, hy 0 t] at hs
  obtain ⟨hab, hr⟩ := Prod.mk.inj hs
  exact ⟨(Except.ok.inj hab).symm, (congrArg Reader.rest hr).symm⟩

theorem reads_take {bs : Bytes} {length : Nat} (h : bs.length = length) :
    (take length).Reads bs bs := by
  subst h
  intro position rest
  rw [apply_take, if_neg (by simp), List.take_left' rfl, List.drop_left' rfl]

/-- **A list of things**, each read by the same decoder. -/
theorem reads_many {d : Decoder α} {encode : β → Bytes} {value : β → α} {as : List β}
    (h : ∀ a ∈ as, d.Reads (encode a) (value a)) :
    (d.many as.length).Reads (as.flatMap encode) (as.map value) := by
  induction as with
  | nil => exact reads_pure []
  | cons a as ih =>
    obtain ⟨ha, has⟩ := List.forall_mem_cons.mp h
    exact ha.bind ((ih has).bind_nil (reads_pure (value a :: as.map value)))

/-- Two lists as long as each other are one if their bytes begin the same stream. -/
theorem flatMap_inj {d : Decoder α} {encode : α → Bytes} {as bs : List α} {s t : Bytes}
    (ha : ∀ a ∈ as, d.Reads (encode a) a) (hb : ∀ b ∈ bs, d.Reads (encode b) b)
    (hlength : as.length = bs.length) (h : as.flatMap encode ++ s = bs.flatMap encode ++ t) :
    as = bs ∧ s = t := by
  have hreads := reads_many ha
  have hread := reads_many hb
  rw [List.map_id'] at hreads hread
  rw [← hlength] at hread
  exact hreads.inj hread h

/-! ## Integers -/

theorem reads_fixed {t : IntType} (v : t.Value) : (fixed t).Reads (t.toBytes v) v := by
  refine (reads_take (Bytes.length_ofNatLE t.size (t.bits v.val))).bind_nil ?_
  change Reads (pure (t.ofBytes (t.toBytes v))) [] v
  rw [IntType.ofBytes_toBytes]
  exact reads_pure v

theorem reads_fixed_natCast {t : IntType} {n : Nat} (h : t.Holds n) :
    (fixed t).Reads (Bytes.ofNatLE t.size n) ⟨n, h⟩ := by
  rw [← IntType.toBytes_natCast h]
  exact reads_fixed _

/-- An integer of one type, narrowed to another that holds it too. -/
theorem reads_narrow_value {source target : IntType} (v : source.Value)
    (h : target.Holds v.val) :
    (do target.narrow (← fixed source) : Decoder target.Value).Reads (source.toBytes v)
      ⟨v.val, h⟩ := by
  refine (reads_fixed v).bind_nil ?_
  rw [IntType.narrow, dif_pos h]
  exact reads_pure _

theorem reads_narrow {source target : IntType} {n : Nat} (hs : source.Holds n)
    (ht : target.Holds n) :
    (do target.narrow (← fixed source) : Decoder target.Value).Reads
      (Bytes.ofNatLE source.size n) ⟨n, ht⟩ := by
  rw [← IntType.toBytes_natCast hs]
  exact reads_narrow_value ⟨n, hs⟩ ht

theorem reads_eight {t : IntType} (v : t.Value) :
    (eight t).Reads (Bytes.ofNatLE 8 (IntType.u64.bits v.val)) v := by
  have hwidest := IntType.holds_widest v.property
  unfold eight
  split at hwidest
  · next hs =>
    rw [if_pos hs, ← IntType.bits_i64]
    exact reads_narrow_value ⟨v.val, hwidest⟩ v.property
  · next hs =>
    rw [if_neg hs]
    exact reads_narrow_value ⟨v.val, hwidest⟩ v.property

open CompactSize (Form)

/-- **A CompactSize number** in a form that holds it, as the type asked for holds it too. -/
theorem reads_form {t : IntType} {form : Form} {n : Nat} (hform : form.Holds n) (h : t.Holds n) :
    (varInt t).Reads (form.encode n) ⟨n, h⟩ := by
  cases form with
  | one =>
    have hlt : n < 0xFD := hform
    have hu8 : IntType.u8.Holds n := (IntType.holds_natCast rfl).mpr (Nat.lt_trans hlt (by decide))
    have hne : ∀ mark : Int, 0xFD ≤ mark → ¬ (n : Int) = mark := by omega
    refine (reads_fixed_natCast hu8).bind_nil ?_
    rw [if_neg (hne 0xFD (by decide)), if_neg (hne 0xFE (by decide)), if_neg (hne 0xFF (by decide)),
      IntType.narrow, dif_pos h]
    exact reads_pure _
  | two =>
    have hu16 : IntType.u16.Holds n := (IntType.holds_natCast rfl).mpr hform
    have hmark : IntType.u8.Holds (0xFD : Nat) := by decide
    refine (reads_fixed_natCast hmark).bind ?_
    rw [if_pos (show ((0xFD : Nat) : Int) = 0xFD from rfl)]
    exact reads_narrow hu16 h
  | four =>
    have hu32 : IntType.u32.Holds n := (IntType.holds_natCast rfl).mpr hform
    have hmark : IntType.u8.Holds (0xFE : Nat) := by decide
    refine (reads_fixed_natCast hmark).bind ?_
    rw [if_neg (show ¬ ((0xFE : Nat) : Int) = 0xFD by decide),
      if_pos (show ((0xFE : Nat) : Int) = 0xFE from rfl)]
    exact reads_narrow hu32 h
  | eight =>
    have hu64 : IntType.u64.Holds n := (IntType.holds_natCast rfl).mpr hform
    have hmark : IntType.u8.Holds (0xFF : Nat) := by decide
    refine (reads_fixed_natCast hmark).bind ?_
    rw [if_neg (show ¬ ((0xFF : Nat) : Int) = 0xFD by decide),
      if_neg (show ¬ ((0xFF : Nat) : Int) = 0xFE by decide),
      if_pos (show ((0xFF : Nat) : Int) = 0xFF from rfl)]
    exact reads_narrow hu64 h

theorem reads_varInt {t : IntType} {n : Nat} (h : t.Holds n) :
    (varInt t).Reads (CompactSize.encode n) ⟨n, h⟩ := by
  have hmax : n < 2 ^ 64 := Nat.lt_of_lt_of_le (IntType.lt_of_holds h) t.modulus_le
  rw [CompactSize.encode_eq]
  exact reads_form (CompactSize.Form.holds_shortest hmax) h

theorem reads_count {form : Form} {n : Nat} (h : form.Holds n) : count.Reads (form.encode n) n := by
  have hu64 : IntType.u64.Holds n :=
    (IntType.holds_natCast rfl).mpr (CompactSize.Form.lt_of_holds h)
  exact (reads_form h hu64).bind_nil (reads_pure n)

/-- **Bytes after their number.** -/
theorem reads_varBytes {form : Form} {bs : Bytes} (h : form.Holds bs.length) :
    varBytes.Reads (form.prefixed bs) bs :=
  (reads_count h).bind (reads_take rfl)

end Decoder

end SpendScript
