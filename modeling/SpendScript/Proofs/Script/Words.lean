import SpendScript.Proofs.Script.Number
import SpendScript.Script.Fault

/-!
# Script numbers in words

In words of the width of an integer type nothing is lost: the forms that are no longer than the
type has bytes are read as the integers that they denote, and values are written as their shortest
forms, for which the buffer has room.

* `toNat_shiftIn`, `toNat_foldl_shiftIn`: reading byte by byte; `wrap_complement`: negation;
* **`value_decodeAs`**: the value of a form;
* `putMagnitude_eq`, `toNat_magnitude`, `withSign_concat`: writing byte by byte;
* **`encodeAs_eq`**: the form of a value;
* **`encodeAs_decodeAs`**: values and their forms;
* `operand_eq`, `operand_encode`: the numbers that operations take.
-/

namespace SpendScript.ScriptNumber

open Bytes

/-! ## Reading -/

section

variable {width : Nat} {n : BitVec width}

/-- A byte that is filled in counts as the lowest digit, if nothing is lost at the top. -/
theorem toNat_shiftIn {b : UInt8} (h : 256 * n.toNat + b.toNat < 2 ^ width) :
    (shiftIn n b).toNat = 256 * n.toNat + b.toNat := by
  have hshift : n.toNat <<< 8 = 256 * n.toNat := by rw [Nat.shiftLeft_eq, Nat.mul_comm]
  have hbyte : (b.toBitVec.setWidth width).toNat = b.toNat := by
    rw [BitVec.toNat_setWidth, UInt8.toNat_toBitVec]
    exact Nat.mod_eq_of_lt (by omega)
  rw [shiftIn, BitVec.toNat_or, hbyte, BitVec.toNat_shiftLeft, hshift, Nat.mod_eq_of_lt (by omega),
    ← hshift]
  exact (Nat.shiftLeft_add_eq_or_of_lt b.toNat_lt n.toNat).symm

theorem toNat_foldl_shiftIn (bytes : Bytes)
    (h : 256 ^ bytes.length * n.toNat + toNatLE bytes.reverse < 2 ^ width) :
    (bytes.foldl shiftIn n).toNat = 256 ^ bytes.length * n.toNat + toNatLE bytes.reverse := by
  induction bytes generalizing n with
  | nil =>
    simp
  | cons b bytes ih =>
    have hsplit : 256 ^ (b :: bytes).length * n.toNat + toNatLE (b :: bytes).reverse =
        256 ^ bytes.length * (256 * n.toNat + b.toNat) + toNatLE bytes.reverse := by
      rw [List.reverse_cons, toNatLE_concat, List.length_reverse, List.length_cons, Nat.pow_succ,
        Nat.mul_add, Nat.mul_assoc]
      omega
    have hfirst : 256 * n.toNat + b.toNat < 2 ^ width := by
      have hle := Nat.le_mul_of_pos_left (256 * n.toNat + b.toNat)
        (show 0 < 256 ^ bytes.length from Nat.pow_pos (by decide))
      omega
    rw [hsplit] at h ⊢
    rw [List.foldl_cons, ih (by rwa [toNat_shiftIn hfirst]), toNat_shiftIn hfirst]

end

variable {t : IntType}

theorem two_pow_width (t : IntType) : 2 ^ (8 * t.size) = t.modulus := by
  rw [IntType.modulus_eq, Nat.pow_mul]

theorem wrap_of_lt (ht : t.signed = true) {n : Nat} (h : n < t.modulus / 2) : t.wrap n = n := by
  cases t <;> simp [IntType.wrap, IntType.modulus, IntType.size, IntType.signed, Int.bmod_def] at * <;>
    omega

/-- The complement of a magnitude and one is its negative. -/
theorem wrap_complement (ht : t.signed = true) {n : BitVec (8 * t.size)}
    (h : n.toNat < t.modulus / 2) : t.wrap (~~~n + 1).toNat = -n.toNat := by
  have hneg : ~~~n + 1 = -n := (BitVec.neg_eq_not_add n).symm
  rw [hneg, BitVec.toNat_neg, two_pow_width]
  generalize n.toNat = m at h ⊢
  cases t <;> simp [IntType.wrap, IntType.modulus, IntType.size, IntType.signed, Int.bmod_def] at * <;>
    omega

/-- The magnitude of a form that is not too long leaves the top bit free. -/
theorem magnitude_lt {low : Bytes} (h : low.length < t.size) (last : UInt8) :
    256 ^ low.length * (last.toNat % 128) + toNatLE low < t.modulus / 2 := by
  have hlow := toNatLE_lt low
  have hlast := Nat.mul_le_mul_left (256 ^ low.length) (show last.toNat % 128 ≤ 127 by omega)
  have hpow : 256 ^ (low.length + 1) ≤ t.modulus := Nat.pow_le_pow_right (by decide) h
  rw [Nat.pow_succ] at hpow
  omega

/-- **The value of a form** that is no longer than the type has bytes. -/
theorem value_decodeAs (ht : t.signed = true) {bs : Bytes} (h : bs.length ≤ t.size) :
    (decodeAs t bs).value.val = decode bs := by
  obtain rfl | ⟨low, last, rfl⟩ := bs.eq_nil_or_concat
  · cases t <;> rfl
  · rw [List.concat_eq_append, List.length_append, List.length_singleton] at h
    rw [List.concat_eq_append, decode_eq_signMagnitude, signMagnitude_concat]
    have hhalf := magnitude_lt h last
    have hwidth : 256 ^ low.length * (last.toNat % 128) + toNatLE low < 2 ^ (8 * t.size) := by
      rw [two_pow_width]
      omega
    have hlast : (shiftIn (0 : BitVec (8 * t.size)) (last &&& 0x7F)).toNat = last.toNat % 128 := by
      have hle : last.toNat % 128 ≤ 256 ^ low.length * (last.toNat % 128) :=
        Nat.le_mul_of_pos_left _ (Nat.pow_pos (by decide))
      rw [toNat_shiftIn] <;> rw [toNat_and_0x7F] <;> simp
      omega
    have hread : (low.reverse.foldl shiftIn
        (shiftIn (0 : BitVec (8 * t.size)) (last &&& 0x7F))).toNat =
        256 ^ low.length * (last.toNat % 128) + toNatLE low := by
      rw [toNat_foldl_shiftIn] <;> rw [hlast, List.length_reverse, List.reverse_reverse]
      exact hwidth
    have hsign : (last &&& 0x80 != 0) = true ↔ ¬ last.toNat < 128 := by
      rw [bne_iff_ne, Ne, and_0x80_eq_zero_iff]
    simp only [decodeAs, List.reverse_append, List.reverse_cons, List.reverse_nil, List.nil_append,
      List.cons_append, IntType.ofBits]
    by_cases hneg : last.toNat < 128
    · rw [if_neg (mt hsign.mp (not_not_intro hneg)), if_pos hneg, hread, wrap_of_lt ht hhalf,
        Nat.add_comm]
    · rw [if_pos (hsign.mpr hneg), if_neg hneg, wrap_complement ht (by rwa [hread]), hread,
        Nat.add_comm]

theorem minimal_decodeAs (t : IntType) (bs : Bytes) : (decodeAs t bs).minimal = isMinimal bs := by
  obtain rfl | ⟨low, last, rfl⟩ := bs.eq_nil_or_concat
  · rfl
  · simp [decodeAs]

/-! ## Writing -/

theorem byteCount_of_pos {n : Nat} (h : n ≠ 0) : byteCount n = byteCount (n / 256) + 1 := by
  have hiff (k : Nat) : byteCount n ≤ k + 1 ↔ byteCount (n / 256) ≤ k := by
    rw [byteCount_le_iff, byteCount_le_iff, Nat.pow_succ, Nat.div_lt_iff_lt_mul (by decide)]
  have hpos : byteCount n ≠ 0 := by
    have hlt := mt (byteCount_le_iff n 0).mp
    rw [Nat.pow_zero] at hlt
    have := hlt (by omega)
    omega
  have hle := (hiff (byteCount (n / 256))).mpr (Nat.le_refl _)
  have hge := (hiff (byteCount n - 1)).mp (by omega)
  omega

/-- **A magnitude is put into a buffer** if there is room for its bytes. -/
theorem putMagnitude_eq {width room : Nat} (n : BitVec width) {bs : Bytes}
    (h : bs.length + byteCount n.toNat ≤ room) :
    putMagnitude room n bs = some (bs ++ ofNatLE (byteCount n.toNat) n.toNat) := by
  fun_induction putMagnitude room n bs with
  | case1 bs => simp [byteCount]
  | case2 n bs hn ih =>
    have hne : n.toNat ≠ 0 := fun hzero => hn (BitVec.eq_of_toNat_eq hzero)
    have hcount := byteCount_of_pos hne
    have hshift : (n >>> 8).toNat = n.toNat / 256 := by
      rw [BitVec.toNat_ushiftRight, Nat.shiftRight_eq_div_pow]
    rw [put, if_pos (by omega), Option.bind_eq_bind, Option.bind_some, ih _ ?_, hshift, hcount,
      ofNatLE_succ, List.append_assoc]
    · rfl
    · rw [hshift, List.length_append, List.length_singleton]
      omega

/-- The word of a magnitude holds it, that of the least value included. -/
theorem toNat_magnitude (v : t.Value) : (magnitude t v).toNat = v.val.natAbs := by
  obtain ⟨v, hv⟩ := v
  have hneg (bits : BitVec (8 * t.size)) : ~~~bits + 1 = -bits := (BitVec.neg_eq_not_add bits).symm
  simp only [magnitude, hneg]
  split
  · rw [BitVec.toNat_neg, BitVec.toNat_ofInt, two_pow_width]
    cases t <;> simp [IntType.Holds, IntType.minValue, IntType.maxValue, IntType.modulus,
      IntType.size, IntType.signed] at * <;> omega
  · rw [BitVec.toNat_ofInt, two_pow_width]
    cases t <;> simp [IntType.Holds, IntType.minValue, IntType.maxValue, IntType.modulus,
      IntType.size, IntType.signed] at * <;> omega

theorem or_0x80 {b : UInt8} (h : b.toNat < 128) : b ||| 0x80 = b + 0x80 := by
  have hall : ∀ bits : BitVec 8, bits.toNat < 128 → bits ||| 0x80 = bits + 0x80 := by decide
  exact UInt8.toBitVec_inj.mp (hall b.toBitVec h)

/-- The sign on top of the last byte, or of one byte more. -/
theorem withSign_concat (negative : Bool) (low : Bytes) (last : UInt8) :
    withSign negative (low ++ [last]) =
      if last.toNat < 128 then low ++ [if negative then last ||| 0x80 else last]
      else low ++ [last, if negative then 0x80 else 0] := by
  induction low with
  | nil =>
    by_cases h : last.toNat < 128
    · rw [if_pos h, or_0x80 h]
      exact if_pos (UInt8.lt_iff_toNat_lt.mpr h)
    · rw [if_neg h]
      exact if_neg (mt UInt8.lt_iff_toNat_lt.mp h)
  | cons b low ih =>
    obtain ⟨next, rest, hnext⟩ := List.exists_cons_of_ne_nil (l := low ++ [last]) (by simp)
    rw [List.cons_append, hnext, withSign, ← hnext, ih]
    split <;> rfl

theorem modify_last (f : UInt8 → UInt8) (low : Bytes) (last : UInt8) :
    (low ++ [last]).modify ((low ++ [last]).length - 1) f = low ++ [f last] := by
  rw [List.length_append, List.length_singleton, Nat.add_sub_cancel]
  induction low with
  | nil => rfl
  | cons b low ih => exact congrArg (b :: ·) ih

theorem byteCount_le_size (v : t.Value) : byteCount v.val.natAbs ≤ t.size := by
  rw [byteCount_le_iff, ← toNat_magnitude, ← IntType.modulus_eq, ← two_pow_width]
  exact (magnitude t v).isLt

/-- **The form of a value** is the shortest one, and the buffer has room for it. -/
theorem encodeAs_eq (v : t.Value) : encodeAs t v = some (encode v.val) := by
  by_cases hv : v.val = 0
  · rw [encodeAs, if_pos hv, hv]
    rfl
  · have hcount := byteCount_le_size v
    obtain ⟨low, last, hdigits⟩ :=
      (ofNatLE (byteCount v.val.natAbs) v.val.natAbs).eq_nil_or_concat.resolve_left
        (magnitude_ne_nil hv)
    rw [List.concat_eq_append] at hdigits
    have hlength := congrArg List.length hdigits
    rw [length_ofNatLE, List.length_append, List.length_singleton] at hlength
    have hput : putMagnitude (t.size + 1) (magnitude t v) [] = some (low ++ [last]) := by
      rw [putMagnitude_eq] <;> rw [toNat_magnitude]
      · rw [hdigits, List.nil_append]
      · rw [List.length_nil]
        omega
    have htop : (last &&& 0x80 != 0) = true ↔ ¬ last.toNat < 128 := by
      rw [bne_iff_ne, Ne, and_0x80_eq_zero_iff]
    rw [encode, hdigits, withSign_concat, encodeAs, if_neg hv]
    simp only [hput, Option.bind_eq_bind, Option.bind_some, List.getLast?_concat, Option.any_some]
    by_cases hlast : last.toNat < 128
    · -- the top bit is free for the sign
      rw [if_neg (mt htop.mp (not_not_intro hlast)), if_pos hlast, modify_last]
      by_cases hneg : v.val < 0 <;> simp [hneg]
    · -- one byte more for the sign, the last one that there is room for
      have hroom : (low ++ [last]).length < t.size + 1 := by
        rw [List.length_append, List.length_singleton]
        omega
      rw [if_pos (htop.mpr hlast), if_neg hlast, put, if_pos hroom, Option.bind_some, modify_last]
      by_cases hneg : v.val < 0 <;> simp [hneg]

/-! ## Values and their forms -/

/-- Which values of a signed type have forms of no more bytes than the type. -/
theorem length_encode_le_size (ht : t.signed = true) (v : t.Value) :
    (encode v.val).length ≤ t.size + 1 ∧ ((encode v.val).length ≤ t.size ↔ t.minValue < v.val) := by
  have hmodulus := t.modulus_eq
  have hlength := length_encode_le_iff v.val t.size
  have hlonger := lt_length_encode_iff v.val t.size
  obtain ⟨v, hv⟩ := v
  dsimp only at hlength hlonger ⊢
  rw [← hmodulus] at hlength hlonger
  cases t <;> simp [IntType.Holds, IntType.minValue, IntType.maxValue, IntType.modulus,
    IntType.size, IntType.signed] at * <;> omega

/-- **Values and their forms.** Forms that are no longer than a signed type has bytes are read as
what they denote, and the shortest ones are told. Every value is written in its shortest form, for
which the buffer has room. This is no longer than the type, is read back, and is shorter than every
other form of the number, except that the least value takes one byte more. -/
theorem encodeAs_decodeAs (t : IntType) (ht : t.signed = true) :
    (∀ bs : Bytes, bs.length ≤ t.size →
      (decodeAs t bs).value.val = signMagnitude bs ∧
        ((decodeAs t bs).minimal = true ↔ encodeAs t (decodeAs t bs).value = some bs)) ∧
    (∀ v : t.Value, encodeAs t v = some (encode v.val) ∧ (encode v.val).length ≤ t.size + 1) ∧
    (∀ v : t.Value, t.minValue < v.val →
      (encode v.val).length ≤ t.size ∧
        (decodeAs t (encode v.val)).value = v ∧ (decodeAs t (encode v.val)).minimal = true ∧
        ∀ other, signMagnitude other = v.val → other ≠ encode v.val →
          (encode v.val).length < other.length) ∧
    (∀ v : t.Value, v.val = t.minValue → (encode v.val).length = t.size + 1) := by
  refine ⟨fun bs h => ⟨?_, ?_⟩, fun v => ⟨encodeAs_eq v, (length_encode_le_size ht v).1⟩,
    fun v h => ?_, fun v h => ?_⟩
  · rw [value_decodeAs ht h, decode_eq_signMagnitude]
  · rw [minimal_decodeAs, isMinimal_iff, encodeAs_eq, value_decodeAs ht h, Option.some.injEq]
  · have hlength := (length_encode_le_size ht v).2.mpr h
    refine ⟨hlength, Subtype.ext ?_, ?_, fun other hother hne => ?_⟩
    · rw [value_decodeAs ht hlength, decode_encode]
    · rw [minimal_decodeAs, isMinimal_iff, decode_encode]
    · rw [← decode_eq_signMagnitude] at hother
      rw [← hother] at hne ⊢
      exact length_encode_lt hne.symm
  · obtain ⟨hle, hiff⟩ := length_encode_le_size ht v
    have hlt := mt hiff.mp (by omega)
    omega

/-- In 16 bits: a number whose top bit is taken, and the least value, which takes three bytes. -/
theorem encodeAs_decodeAs_i16 :
    (decodeAs .i16 [0xFF, 0x80]).value.val = -255 ∧
      encodeAs .i16 ⟨-32768, by decide⟩ = some (encode (-32768)) ∧
      (encode (-32768)).length = 3 :=
  have h := encodeAs_decodeAs .i16 rfl
  ⟨(h.1 [0xFF, 0x80] (by decide)).1.trans (by decide), (h.2.1 ⟨-32768, by decide⟩).1,
    h.2.2.2 ⟨-32768, by decide⟩ (by decide)⟩

/-! ## Operands -/

/-- An operand has at most four bytes, so it is read as the number that it denotes. -/
theorem operand_eq (item : Bytes) :
    operand item =
      if 4 < item.length then .error (.numberTooLong item.length) else .ok (decode item) := by
  unfold operand
  split
  · rfl
  · next h => rw [value_decodeAs (t := .i32) rfl (Nat.not_lt.mp h)]

theorem operand_eq_ok_iff {item : Bytes} {n : Int} :
    operand item = .ok n ↔ item.length ≤ 4 ∧ decode item = n := by
  rw [operand_eq]
  by_cases h : 4 < item.length
  · simp [h, Nat.not_le.mpr h]
  · simp [h, Nat.not_lt.mp h]

theorem operand_encode {v : Int} (h : v.natAbs < 2 ^ 31) : operand (encode v) = .ok v :=
  operand_eq_ok_iff.mpr ⟨(length_encode_le_iff v 3).mpr h, decode_encode v⟩

end SpendScript.ScriptNumber
