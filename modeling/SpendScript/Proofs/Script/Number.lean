import SpendScript.Proofs.Wire.Integer
import SpendScript.Script.Number

/-!
# Script numbers and their items

The item of a number holds its magnitude, with the sign in the top bit of the last byte. So a number
is read back from its item, and the number of bytes follows from the magnitude. Of all forms of a
number one is shorter than the others, and it can be told by its last two bytes.

* `byteCount_le_iff`: the bytes of a magnitude;
* `signWeight_cons`, **`toNatLE_withSign`**: a magnitude with its sign;
* **`decode_encode`**: from numbers to items and back;
* **`length_encode_le_iff`**: which numbers have short items;
* `signMagnitude`, **`decode_eq_signMagnitude`**: the number of any form;
* **`isMinimal_iff`**, **`length_encode_lt`**: the shortest form;
* **`isTruthy_eq_false_iff`**: the items that count as false.
-/

namespace SpendScript.ScriptNumber

open Bytes

theorem byteCount_le_iff (n k : Nat) : byteCount n ≤ k ↔ n < 256 ^ k := by
  have hpow : 256 ^ k = 2 ^ (8 * k) := by rw [Nat.pow_mul]
  unfold byteCount
  split
  · next h =>
    subst h
    exact iff_of_true (Nat.zero_le k) (Nat.pow_pos (by decide))
  · next h =>
    rw [hpow, ← Nat.log2_lt h]
    omega

theorem toNatLE_magnitude (n : Nat) : toNatLE (ofNatLE (byteCount n) n) = n :=
  toNatLE_ofNatLE_of_lt ((byteCount_le_iff n _).mp (Nat.le_refl _))

/-! ## Signs -/

theorem signWeight_cons {b : UInt8} {bs : Bytes} (h : bs ≠ []) :
    signWeight (b :: bs) = 256 * signWeight bs := by
  obtain ⟨c, cs, rfl⟩ := List.exists_cons_of_ne_nil h
  change 128 * 256 ^ (cs.length + 1) = 256 * (128 * 256 ^ cs.length)
  rw [Nat.pow_succ]
  omega

theorem withSign_ne_nil {negative : Bool} {bs : Bytes} (h : bs ≠ []) :
    withSign negative bs ≠ [] := by
  fun_cases withSign negative bs with
  | case1 => exact h
  | case2 | case3 | case4 => exact List.cons_ne_nil _ _

/-- **A magnitude with its sign**: the magnitude stays below the top bit, which is added to it if
the number is negative. -/
theorem toNatLE_withSign (negative : Bool) {bs : Bytes} (h : bs ≠ []) :
    toNatLE bs < signWeight (withSign negative bs) ∧
      toNatLE (withSign negative bs) =
        toNatLE bs + if negative then signWeight (withSign negative bs) else 0 := by
  fun_induction withSign negative bs with
  | case1 => exact absurd rfl h
  | case2 b hb =>
    have hb' : b.toNat < 128 := UInt8.lt_iff_toNat_lt.mp hb
    cases negative with
    | true => simp [signWeight, UInt8.toNat_add]; omega
    | false => simp [signWeight]; omega
  | case3 b hb =>
    have hb' := b.toNat_lt
    cases negative with
    | true => simp [signWeight]; omega
    | false => simp [signWeight]; omega
  | case4 b next rest ih =>
    have hb := b.toNat_lt
    obtain ⟨hlt, heq⟩ := ih (List.cons_ne_nil next rest)
    rw [signWeight_cons (withSign_ne_nil (List.cons_ne_nil next rest)), toNatLE_cons b,
      toNatLE_cons b, heq]
    constructor
    · omega
    · split <;> omega

/-- A byte more is needed if the top bit is taken. -/
theorem length_withSign (negative : Bool) (bs : Bytes) :
    (withSign negative bs).length =
      if toNatLE bs < signWeight bs then bs.length else bs.length + 1 := by
  fun_induction withSign negative bs with
  | case1 => rfl
  | case2 b hb =>
    have hb' : b.toNat < 128 := UInt8.lt_iff_toNat_lt.mp hb
    simp [signWeight, hb']
  | case3 b hb =>
    have hb' : ¬ b.toNat < 128 := fun h => hb (UInt8.lt_iff_toNat_lt.mpr h)
    simp [signWeight, hb']
  | case4 b next rest ih =>
    have hb := b.toNat_lt
    have hiff : toNatLE (b :: next :: rest) < signWeight (b :: next :: rest) ↔
        toNatLE (next :: rest) < signWeight (next :: rest) := by
      rw [signWeight_cons (List.cons_ne_nil next rest), toNatLE_cons b]
      omega
    rw [List.length_cons, ih]
    simp only [hiff, List.length_cons]
    split <;> rfl

/-! ## Numbers -/

theorem magnitude_ne_nil {v : Int} (h : v ≠ 0) : ofNatLE (byteCount v.natAbs) v.natAbs ≠ [] := by
  intro hnil
  have hvalue := toNatLE_magnitude v.natAbs
  rw [hnil] at hvalue
  exact h (Int.natAbs_eq_zero.mp hvalue.symm)

/-- **From numbers to items and back.** -/
theorem decode_encode (v : Int) : decode (encode v) = v := by
  by_cases h : v = 0
  · subst h
    rfl
  · obtain ⟨hlt, heq⟩ := toNatLE_withSign (v < 0) (magnitude_ne_nil h)
    rw [← encode, toNatLE_magnitude] at hlt heq
    by_cases hneg : v < 0
    · rw [if_pos (decide_eq_true hneg)] at heq
      rw [decode, if_neg (by omega), heq]
      omega
    · rw [if_neg (mt of_decide_eq_true hneg)] at heq
      rw [decode, if_pos (by omega), heq]
      omega

theorem encode_ne_nil {v : Int} (h : v ≠ 0) : encode v ≠ [] := withSign_ne_nil (magnitude_ne_nil h)

/-- **The length of an item** follows from the magnitude: the top bit is for the sign. -/
theorem length_encode_le_iff (v : Int) (k : Nat) :
    (encode v).length ≤ k + 1 ↔ v.natAbs < 128 * 256 ^ k := by
  constructor
  · intro hle
    by_cases h : v = 0
    · subst h
      exact Nat.mul_pos (by decide) (Nat.pow_pos (by decide))
    · obtain ⟨hlt, -⟩ := toNatLE_withSign (v < 0) (magnitude_ne_nil h)
      rw [← encode, toNatLE_magnitude] at hlt
      refine Nat.lt_of_lt_of_le hlt (Nat.mul_le_mul_left 128 (Nat.pow_le_pow_right (by decide) ?_))
      omega
  · intro hlt
    have hcount : byteCount v.natAbs ≤ k + 1 := by
      rw [byteCount_le_iff, Nat.pow_succ]
      omega
    rw [encode, length_withSign, toNatLE_magnitude, length_ofNatLE]
    split
    · exact hcount
    · next hlarge =>
      -- the top bit is taken, so the magnitude has fewer bytes than allowed
      have hne : byteCount v.natAbs ≠ k + 1 := by
        intro heq
        rw [signWeight, length_ofNatLE, heq] at hlarge
        exact hlarge hlt
      omega

theorem lt_length_encode_iff (v : Int) (k : Nat) :
    k < (encode v).length ↔ 128 * 256 ^ k ≤ 256 * v.natAbs := by
  cases k with
  | zero =>
    rw [List.length_pos_iff]
    constructor
    · intro h
      have hv : v ≠ 0 := by
        rintro rfl
        exact h rfl
      omega
    · intro h
      exact encode_ne_nil (by omega)
  | succ k =>
    have h := length_encode_le_iff v k
    rw [Nat.pow_succ]
    omega

/-! ## Forms -/

/-- The number of a form: the top bit of the last byte is the sign, and all other bits are the
magnitude. -/
def signMagnitude (bs : Bytes) : Int :=
  match bs.getLast? with
  | none => 0
  | some last =>
    let magnitude := toNatLE (bs.dropLast ++ [last &&& 0x7F])
    if last &&& 0x80 = 0 then magnitude else -magnitude

theorem toNat_and_0x7F (b : UInt8) : (b &&& 0x7F).toNat = b.toNat % 128 :=
  (UInt8.toNat_and b 0x7F).trans (Nat.and_two_pow_sub_one_eq_mod b.toNat 7)

theorem and_0x80_eq_zero_iff (b : UInt8) : b &&& 0x80 = 0 ↔ b.toNat < 128 := by
  have h : ∀ bits : BitVec 8, bits &&& 0x80 = 0 ↔ bits.toNat < 128 := by decide
  rw [← UInt8.toBitVec_inj]
  exact h b.toBitVec

theorem toNatLE_concat (low : Bytes) (last : UInt8) :
    toNatLE (low ++ [last]) = toNatLE low + 256 ^ low.length * last.toNat := by
  rw [toNatLE_append, toNatLE_cons, toNatLE_nil, Nat.mul_zero, Nat.add_zero]

theorem signWeight_concat (low : Bytes) (last : UInt8) :
    signWeight (low ++ [last]) = 128 * 256 ^ low.length := by
  rw [signWeight, List.length_append, List.length_singleton, Nat.add_sub_cancel]
  rfl

theorem signMagnitude_concat (low : Bytes) (last : UInt8) :
    signMagnitude (low ++ [last]) =
      if last.toNat < 128 then ((toNatLE low + 256 ^ low.length * (last.toNat % 128) : Nat) : Int)
      else -((toNatLE low + 256 ^ low.length * (last.toNat % 128) : Nat) : Int) := by
  simp only [signMagnitude, List.getLast?_concat, List.dropLast_concat, and_0x80_eq_zero_iff,
    toNatLE_concat, toNat_and_0x7F]

/-- **The number of any form.** -/
theorem decode_eq_signMagnitude (bs : Bytes) : decode bs = signMagnitude bs := by
  obtain rfl | ⟨low, last, rfl⟩ := bs.eq_nil_or_concat
  · rfl
  · have hlow := toNatLE_lt low
    have hlast := last.toNat_lt
    rw [List.concat_eq_append, signMagnitude_concat, decode, toNatLE_concat, signWeight_concat]
    generalize 256 ^ low.length = weight at hlow ⊢
    by_cases h : last.toNat < 128
    · have hle := Nat.mul_le_mul_left weight (show last.toNat ≤ 127 by omega)
      rw [if_pos h, if_pos (by omega), Nat.mod_eq_of_lt h]
    · -- the sign is taken off the last byte
      have hmod : last.toNat = 128 + last.toNat % 128 := by omega
      have hmul : weight * last.toNat = weight * 128 + weight * (last.toNat % 128) := by
        rw [← Nat.mul_add, ← hmod]
      rw [if_neg h, if_neg (by omega), hmul]
      omega

theorem natAbs_decode_concat (low : Bytes) (last : UInt8) :
    (decode (low ++ [last])).natAbs = toNatLE low + 256 ^ low.length * (last.toNat % 128) := by
  rw [decode_eq_signMagnitude, signMagnitude_concat]
  split <;> omega

/-- Forms of the same length of a number that is not zero are the same. -/
theorem eq_of_decode_eq {a b : Bytes} (hlength : a.length = b.length)
    (hdecode : decode a = decode b) (hne : decode a ≠ 0) : a = b := by
  have hvalue : toNatLE a = toNatLE b := by
    have hweight : signWeight a = signWeight b := by rw [signWeight, signWeight, hlength]
    unfold decode at hdecode hne
    rw [hweight] at hdecode hne
    split at hdecode <;> split at hdecode <;> omega
  rw [← ofNatLE_toNatLE a, ← ofNatLE_toNatLE b, hlength, hvalue]

/-! ## The shortest form -/

theorem length_encode_decode_le (bs : Bytes) : (encode (decode bs)).length ≤ bs.length := by
  obtain rfl | ⟨low, last, rfl⟩ := bs.eq_nil_or_concat
  · exact Nat.le_refl 0
  · rw [List.concat_eq_append, List.length_append, List.length_singleton, length_encode_le_iff,
      natAbs_decode_concat]
    have hlow := toNatLE_lt low
    have hle := Nat.mul_le_mul_left (256 ^ low.length) (show last.toNat % 128 ≤ 127 by omega)
    omega

/-- The last byte of a shortest form is needed: the number does not fit without it. -/
theorem isMinimal_concat_iff (low : Bytes) (last : UInt8) :
    isMinimal (low ++ [last]) = true ↔ low.length < (encode (decode (low ++ [last]))).length := by
  have hmod : (last &&& 0x7F != 0) = true ↔ last.toNat % 128 ≠ 0 := by
    rw [bne_iff_ne, Ne, ← UInt8.toNat_inj, toNat_and_0x7F]
    rfl
  rw [lt_length_encode_iff, natAbs_decode_concat]
  obtain rfl | ⟨low, below, rfl⟩ := low.eq_nil_or_concat
  · change (last &&& 0x7F != 0) = true ↔ _
    rw [hmod]
    simp only [toNatLE_nil, List.length_nil, Nat.pow_zero]
    omega
  · have hbelow : below ≥ 0x80 ↔ 128 ≤ below.toNat := UInt8.le_iff_toNat_le
    have hlow := toNatLE_lt low
    simp only [isMinimal, List.concat_eq_append, List.append_assoc, List.reverse_append,
      List.reverse_cons, List.reverse_nil, List.nil_append, List.cons_append, Bool.or_eq_true,
      hmod, decide_eq_true_eq, hbelow, List.length_append, List.length_cons, List.length_nil,
      toNatLE_concat, Nat.pow_succ]
    generalize 256 ^ low.length = weight at hlow ⊢
    by_cases hlast : last.toNat % 128 = 0
    · rw [hlast]
      by_cases h : 128 ≤ below.toNat
      · have hle := Nat.mul_le_mul_left weight h
        omega
      · have hle := Nat.mul_le_mul_left weight (show below.toNat ≤ 127 by omega)
        omega
    · have hle := Nat.mul_le_mul_left (weight * 256) (Nat.pos_of_ne_zero hlast)
      omega

/-- **The shortest form is told by its last two bytes.** -/
theorem isMinimal_iff (bs : Bytes) : isMinimal bs = true ↔ encode (decode bs) = bs := by
  obtain rfl | ⟨low, last, rfl⟩ := bs.eq_nil_or_concat
  · exact iff_of_true rfl rfl
  · rw [List.concat_eq_append, isMinimal_concat_iff]
    have hle := length_encode_decode_le (low ++ [last])
    rw [List.length_append, List.length_singleton] at hle
    constructor
    · intro hlt
      have hne : decode (low ++ [last]) ≠ 0 := by
        intro h
        rw [h] at hlt
        exact Nat.not_lt_zero _ hlt
      refine (eq_of_decode_eq ?_ (decode_encode _).symm hne).symm
      rw [List.length_append, List.length_singleton]
      omega
    · intro h
      rw [h, List.length_append]
      exact Nat.lt_add_one _

/-- **Every other form is longer.** -/
theorem length_encode_lt {bs : Bytes} (h : encode (decode bs) ≠ bs) :
    (encode (decode bs)).length < bs.length := by
  obtain rfl | ⟨low, last, rfl⟩ := bs.eq_nil_or_concat
  · exact absurd rfl h
  · rw [List.concat_eq_append] at h ⊢
    rw [Ne, ← isMinimal_iff, isMinimal_concat_iff] at h
    rw [List.length_append, List.length_singleton]
    omega

/-! ## Truth -/

theorem isTruthy_cons {b : UInt8} {bs : Bytes} (h : bs ≠ []) :
    isTruthy (b :: bs) = (b != 0 || isTruthy bs) := by
  cases bs with
  | nil => exact absurd rfl h
  | cons next rest => rfl

/-- The last byte counts without its sign, all others as they are. -/
theorem isTruthy_concat (low : Bytes) (last : UInt8) :
    isTruthy (low ++ [last]) = (low.any (· != 0) || (last != 0 && last != 0x80)) := by
  induction low with
  | nil => rfl
  | cons b low ih =>
    have hne : low ++ [last] ≠ [] := List.append_ne_nil_of_right_ne_nil low (List.cons_ne_nil _ _)
    rw [List.cons_append, isTruthy_cons hne, ih, List.any_cons, Bool.or_assoc]

/-- **The items that count as false** are zeros, as many as there may be, and zeros below a lone
sign. -/
theorem isTruthy_eq_false_iff {bs : Bytes} :
    isTruthy bs = false ↔ ∃ n, bs = List.replicate n 0 ∨ bs = List.replicate n 0 ++ [0x80] := by
  obtain rfl | ⟨low, last, rfl⟩ := bs.eq_nil_or_concat
  · exact iff_of_true rfl ⟨0, Or.inl rfl⟩
  rw [List.concat_eq_append, isTruthy_concat, Bool.or_eq_false_iff, List.any_eq_false,
    Bool.and_eq_false_iff, bne_eq_false_iff_eq, bne_eq_false_iff_eq]
  constructor
  · rintro ⟨hlow, hlast⟩
    have hzeros : low = List.replicate low.length 0 :=
      List.eq_replicate_of_mem fun b hb => by simpa using hlow b hb
    rcases hlast with rfl | rfl
    · exact ⟨low.length + 1, Or.inl (by rw [List.replicate_succ', ← hzeros])⟩
    · exact ⟨low.length, Or.inr (by rw [← hzeros])⟩
  · rintro ⟨n, h | h⟩
    · have hall := (List.eq_replicate_iff.mp h).2
      exact ⟨fun b hb => by simp [hall b (List.mem_append_left _ hb)],
        Or.inl (hall last (by simp))⟩
    · obtain ⟨hlow, hlast⟩ := List.append_inj' h rfl
      refine ⟨fun b hb => ?_, Or.inr (List.cons.inj hlast).1⟩
      rw [hlow] at hb
      simp [List.eq_of_mem_replicate hb]

theorem isTruthy_iff {bs : Bytes} :
    isTruthy bs = true ↔
      bs ≠ [] ∧ ∀ n, bs ≠ List.replicate n 0 ∧ bs ≠ List.replicate n 0 ++ [0x80] := by
  rw [← Bool.not_eq_false, isTruthy_eq_false_iff, not_exists]
  constructor
  · exact fun h => ⟨fun hnil => h 0 (Or.inl hnil), fun n => not_or.mp (h n)⟩
  · exact fun h n => not_or.mpr (h.2 n)

end SpendScript.ScriptNumber
