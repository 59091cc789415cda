import Mathlib.Algebra.Group.Nat.Defs
import SpendScript.Wire.IntType

/-!
# Integers and their bytes

A number is read back from its bytes as long as they are enough for it, and a value of an integer
type is read back from its two's complement.

* `Bytes.toNatLE_ofNatLE`, `Bytes.ofNatLE_toNatLE`: the two are inverse below `256 ^ width`;
* `IntType.holds_natCast`: the numbers that an unsigned type holds;
* **`IntType.ofBytes_toBytes`**, `IntType.toBytes_ofBytes`: values and their bytes correspond.
-/

namespace SpendScript

namespace Bytes

theorem toNatLE_lt (bs : Bytes) : toNatLE bs < 256 ^ bs.length := by
  induction bs with
  | nil => simp
  | cons b bs ih =>
    have hb : b.toNat < 256 := b.toNat_lt
    rw [toNatLE_cons, List.length_cons, Nat.pow_succ]
    omega

theorem toNatLE_append (a b : Bytes) :
    toNatLE (a ++ b) = toNatLE a + 256 ^ a.length * toNatLE b := by
  induction a with
  | nil => simp
  | cons x a ih =>
    rw [List.cons_append, toNatLE_cons, ih, toNatLE_cons, List.length_cons, Nat.pow_succ, Nat.mul_add,
      Nat.mul_comm (256 ^ a.length) 256, Nat.mul_assoc, Nat.add_assoc]

theorem toNatLE_ofNatLE (width n : Nat) : toNatLE (ofNatLE width n) = n % 256 ^ width := by
  induction width generalizing n with
  | zero => simp [Nat.mod_one]
  | succ width ih =>
    rw [ofNatLE_succ, toNatLE_cons, ih, UInt8.toNat_ofNat']
    change n % 256 + _ = _
    rw [Nat.pow_succ, Nat.mul_comm (256 ^ width), Nat.mod_mul]

theorem toNatLE_ofNatLE_of_lt {width n : Nat} (h : n < 256 ^ width) :
    toNatLE (ofNatLE width n) = n := by
  rw [toNatLE_ofNatLE, Nat.mod_eq_of_lt h]

theorem ofNatLE_toNatLE (bs : Bytes) : ofNatLE bs.length (toNatLE bs) = bs := by
  induction bs with
  | nil => rfl
  | cons b bs ih =>
    have hb : b.toNat < 256 := b.toNat_lt
    have hdiv : (b.toNat + 256 * toNatLE bs) / 256 = toNatLE bs := by omega
    rw [List.length_cons, toNatLE_cons, ofNatLE_succ, hdiv, ih]
    congr 1
    rw [← UInt8.toNat_inj, UInt8.toNat_ofNat']
    omega

end Bytes

namespace IntType

theorem modulus_eq (t : IntType) : t.modulus = 256 ^ t.size := rfl

theorem modulus_pos (t : IntType) : 0 < t.modulus := Nat.pow_pos (by decide)

theorem holds_natCast {t : IntType} (hs : t.signed = false) {n : Nat} :
    t.Holds n ↔ n < t.modulus := by
  have hpos := t.modulus_pos
  simp only [Holds, minValue, maxValue, hs, Bool.false_eq_true, if_false]
  omega

theorem lt_of_holds {t : IntType} {n : Nat} (h : t.Holds n) : n < t.modulus := by
  have hpos := t.modulus_pos
  have hle := h.2
  unfold maxValue at hle
  split at hle <;> omega

/-- No type has values that the widest one of its sign has not. -/
theorem holds_widest {t : IntType} {v : Int} (h : t.Holds v) :
    (if t.signed then i64 else u64).Holds v := by
  cases t <;>
    simp only [Holds, minValue, maxValue, modulus_eq, size, signed, if_true, if_false,
      Bool.false_eq_true] at h ⊢ <;> omega

theorem modulus_le (t : IntType) : t.modulus ≤ 2 ^ 64 := by cases t <;> decide

theorem bits_lt (t : IntType) (v : Int) : t.bits v < 256 ^ t.size := by
  have hpos := t.modulus_pos
  have hlt := Int.emod_lt_of_pos v (Int.natCast_pos.mpr hpos)
  have hnonneg := Int.emod_nonneg v (Int.natCast_ne_zero.mpr (Nat.ne_of_gt hpos))
  change (v % t.modulus).toNat < t.modulus
  omega

/-- As many bits, whatever the sign. -/
theorem bits_i64 (v : Int) : i64.bits v = u64.bits v := by
  have hmodulus : i64.modulus = u64.modulus := by decide
  rw [bits, bits, hmodulus]

theorem wrap_bits {t : IntType} {v : Int} (h : t.Holds v) : t.wrap (t.bits v) = v := by
  cases t <;>
    simp only [Holds, wrap, bits, minValue, maxValue, modulus_eq, size, signed, Int.bmod_def,
      if_true, if_false, Bool.false_eq_true] at h ⊢ <;> omega

/-- **The bytes of a value determine it.** -/
theorem ofBytes_toBytes {t : IntType} (v : t.Value) : t.ofBytes (t.toBytes v) = v := by
  apply Subtype.ext
  change t.wrap (Bytes.ofNatLE t.size (t.bits v.val)).toNatLE = v.val
  rw [Bytes.toNatLE_ofNatLE_of_lt (t.bits_lt v.val), wrap_bits v.property]

theorem toBytes_natCast {t : IntType} {n : Nat} (h : t.Holds n) :
    t.toBytes ⟨n, h⟩ = Bytes.ofNatLE t.size n := by
  have hn : (n : Int) % t.modulus = n :=
    Int.emod_eq_of_lt (Int.natCast_nonneg n) (Int.ofNat_lt.mpr (lt_of_holds h))
  rw [toBytes, bits, hn]
  rfl

/-- A value of an unsigned type is a number. -/
theorem exists_natCast {t : IntType} (hs : t.signed = false) (v : t.Value) :
    ∃ n : Nat, n < t.modulus ∧ v.val = n ∧ t.toBytes v = Bytes.ofNatLE t.size n := by
  obtain ⟨v, hv⟩ := v
  have hnonneg : 0 ≤ v := by
    have hmin := hv.1
    rwa [minValue, hs, if_neg Bool.false_ne_true] at hmin
  obtain ⟨n, rfl⟩ := Int.eq_ofNat_of_zero_le hnonneg
  exact ⟨n, lt_of_holds hv, rfl, toBytes_natCast hv⟩

theorem bits_wrap (t : IntType) (n : Nat) : t.bits (t.wrap n) = n % t.modulus := by
  have hwrap : t.wrap n % t.modulus = ((n % t.modulus : Nat) : Int) := by
    unfold wrap
    split
    · rw [Int.bmod_emod, Int.natCast_emod]
    · rw [Int.emod_emod, Int.natCast_emod]
  rw [bits, hwrap, Int.toNat_natCast]

theorem toBytes_ofBits {t : IntType} {n : Nat} (h : n < t.modulus) :
    t.toBytes (t.ofBits n) = Bytes.ofNatLE t.size n := by
  change Bytes.ofNatLE t.size (t.bits (t.wrap n)) = _
  rw [bits_wrap, Nat.mod_eq_of_lt h]

/-- **Bytes as many as the type has** are those of their value. -/
theorem toBytes_ofBytes {t : IntType} {bs : Bytes} (h : bs.length = t.size) :
    t.toBytes (t.ofBytes bs) = bs := by
  have hlt : bs.toNatLE < t.modulus := by
    rw [modulus_eq, ← h]
    exact Bytes.toNatLE_lt bs
  rw [ofBytes, toBytes_ofBits hlt, ← h, Bytes.ofNatLE_toNatLE]

end IntType

end SpendScript
