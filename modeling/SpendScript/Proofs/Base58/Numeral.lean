import Mathlib.Data.Nat.Digits.Lemmas
import SpendScript.Base58
import SpendScript.Proofs.Base58.Radix

/-!
# Numerals in two radices

A numeral is a list of digits, most significant first, in which zeros in front count. In another
radix it is the same number behind as many zeros, and the way back leads to the same numeral.

* `exists_replicate_append`: what stands behind the zeros in front;
* `Radix.recode`, **`Radix.recode_recode`**: a numeral in another radix, and back;
* `Radix.pow_le_pow_of_ratio`: when a buffer has room for all numbers of a length;
* **`Base58.significant_convert`**: the buffer holds the number in the other radix.
-/

namespace SpendScript

/-! ## What stands behind the zeros -/

section Front

variable {α : Type}

theorem exists_replicate_append (a : α) (l : List α) :
    ∃ n rest, l = List.replicate n a ++ rest ∧ rest.head? ≠ some a := by
  induction l with
  | nil => exact ⟨0, [], rfl, by simp⟩
  | cons b l ih =>
    by_cases h : b = a
    · obtain ⟨n, rest, rfl, hrest⟩ := ih
      exact ⟨n + 1, rest, by rw [h, List.replicate_succ, List.cons_append], hrest⟩
    · exact ⟨0, b :: l, rfl, by simpa using h⟩

theorem head?_map_ne {β : Type} {f : α → β} {a : α} {b : β} {l : List α}
    (hf : ∀ x ∈ l, f x = b → x = a) (h : l.head? ≠ some a) : (l.map f).head? ≠ some b := by
  cases l with
  | nil => simp
  | cons x l =>
    intro hb
    exact h (congrArg some (hf x List.mem_cons_self (Option.some.inj hb)))

variable [BEq α] [LawfulBEq α] {a : α} (n : Nat) {rest : List α}

theorem takeWhile_replicate_append (h : rest.head? ≠ some a) :
    (List.replicate n a ++ rest).takeWhile (· == a) = List.replicate n a := by
  have hrest : rest.takeWhile (· == a) = [] := by
    cases rest with
    | nil => rfl
    | cons b rest => exact List.takeWhile_cons_of_neg (by simpa using h)
  rw [List.takeWhile_append_of_pos (by simp), hrest, List.append_nil]

theorem dropWhile_replicate_append (h : rest.head? ≠ some a) :
    (List.replicate n a ++ rest).dropWhile (· == a) = rest := by
  rw [List.dropWhile_append_of_pos (by simp), List.dropWhile_beq_eq_self_of_head?_ne h]

end Front

namespace Radix

variable {source target : Nat}

/-! ## Numerals without zeros in front -/

theorem digits_ofDigits_reverse (hs : 1 < source) {digits : List Nat}
    (hd : ∀ d ∈ digits, d < source) (hfront : digits.head? ≠ some 0) :
    Nat.digits source (Nat.ofDigits source digits.reverse) = digits.reverse := by
  refine Nat.digits_ofDigits source hs _ (fun d h => hd d (List.mem_reverse.mp h)) fun hne => ?_
  rw [List.getLast_reverse]
  intro h
  exact hfront (by rw [← h, List.head?_eq_some_head])

theorem head?_reverse_digits (target n : Nat) : (Nat.digits target n).reverse.head? ≠ some 0 := by
  rw [List.head?_reverse]
  intro h
  have hne : Nat.digits target n ≠ [] := List.ne_nil_of_mem (List.mem_of_getLast? h)
  rw [List.getLast?_eq_some_getLast hne] at h
  exact Nat.getLast_digit_ne_zero target (Nat.digits_ne_nil_iff_ne_zero.mp hne) (Option.some.inj h)

/-! ## Another radix -/

/-- The number of a numeral in another radix, behind as many zeros as the numeral has in front. -/
def recode (source target : Nat) (digits : List Nat) : List Nat :=
  digits.takeWhile (· == 0) ++ (Nat.digits target (Nat.ofDigits source digits.reverse)).reverse

theorem recode_replicate_append (source target zeros : Nat) {rest : List Nat}
    (h : rest.head? ≠ some 0) :
    recode source target (List.replicate zeros 0 ++ rest) =
      List.replicate zeros 0 ++ (Nat.digits target (Nat.ofDigits source rest.reverse)).reverse := by
  rw [recode, takeWhile_replicate_append zeros h, List.reverse_append, List.reverse_replicate,
    Nat.ofDigits_append_replicate_zero]

theorem mem_recode_lt (ht : 1 < target) (digits : List Nat) :
    ∀ d ∈ recode source target digits, d < target := by
  obtain ⟨zeros, rest, rfl, hrest⟩ := exists_replicate_append 0 digits
  rw [recode_replicate_append _ _ _ hrest]
  intro d hd
  rcases List.mem_append.mp hd with hd | hd
  · rw [List.eq_of_mem_replicate hd]
    omega
  · exact Nat.digits_lt_base ht (List.mem_reverse.mp hd)

/-- **The way back** from the other radix leads to the same numeral. -/
theorem recode_recode (hs : 1 < source) {digits : List Nat} (hd : ∀ d ∈ digits, d < source) :
    recode target source (recode source target digits) = digits := by
  obtain ⟨zeros, rest, rfl, hrest⟩ := exists_replicate_append 0 digits
  rw [recode_replicate_append _ _ _ hrest,
    recode_replicate_append _ _ _ (head?_reverse_digits target _), List.reverse_reverse,
    Nat.ofDigits_digits, digits_ofDigits_reverse hs (fun d h => hd d (List.mem_append_right _ h))
      hrest, List.reverse_reverse]

/-- Powers compare as their exponents do in the ratio of two exponents at which the bases do. -/
theorem pow_le_pow_of_ratio {a b p q n size : Nat} (hp : p ≠ 0) (hb : 0 < b) (h : a ^ p ≤ b ^ q)
    (hsize : q * n ≤ p * size) : a ^ n ≤ b ^ size := by
  refine (Nat.pow_le_pow_iff_left hp).mp ?_
  calc (a ^ n) ^ p = (a ^ p) ^ n := Nat.pow_right_comm a n p
    _ ≤ (b ^ q) ^ n := Nat.pow_le_pow_left h n
    _ = b ^ (q * n) := (Nat.pow_mul b q n).symm
    _ ≤ b ^ (p * size) := Nat.pow_le_pow_right hb hsize
    _ = (b ^ size) ^ p := by rw [Nat.mul_comm, Nat.pow_mul]

end Radix

/-! ## Buffers of the two conversions -/

namespace Base58

/-- **Bytes have room in the buffer of digits.** -/
theorem pow_le_digitCapacity (n : Nat) : 256 ^ n ≤ 58 ^ digitCapacity n := by
  have h : 256 ^ 100 ≤ 58 ^ 138 := by decide +kernel
  refine Radix.pow_le_pow_of_ratio (by decide) (by decide) h ?_
  unfold digitCapacity
  omega

/-- **Digits have room in the buffer of bytes.** -/
theorem pow_le_byteCapacity (n : Nat) : 58 ^ n ≤ 256 ^ byteCapacity n := by
  have h : 58 ^ 1000 ≤ 256 ^ 733 := by decide +kernel
  refine Radix.pow_le_pow_of_ratio (by decide) (by decide) h ?_
  unfold byteCapacity
  omega

theorem significant_eq {base : Nat} (hb : 1 < base) {buffer : List Nat}
    (hd : ∀ d ∈ buffer, d < base) :
    significant buffer = (Nat.digits base (Nat.ofDigits base buffer)).reverse := by
  obtain ⟨zeros, rest, hbuffer, hrest⟩ := exists_replicate_append 0 buffer.reverse
  have hmem : ∀ d ∈ rest, d < base := fun d h =>
    hd d (List.mem_reverse.mp (hbuffer ▸ List.mem_append_right _ h))
  have hvalue : Nat.ofDigits base buffer = Nat.ofDigits base rest.reverse := by
    rw [← buffer.reverse_reverse, hbuffer, List.reverse_append, List.reverse_replicate,
      Nat.ofDigits_append_replicate_zero]
  rw [significant, hbuffer, dropWhile_replicate_append zeros hrest, hvalue,
    Radix.digits_ofDigits_reverse hb hmem hrest, List.reverse_reverse]

/-- **The buffer holds the number in the other radix** when all digits are read. -/
theorem significant_convert {source target size : Nat} (hs : 1 < source) (ht : 1 < target)
    {digits : List Nat} (hd : ∀ d ∈ digits, d < source)
    (hroom : source ^ digits.length ≤ target ^ size) :
    significant (Radix.convert source target size digits) =
      (Nat.digits target (Nat.ofDigits source digits.reverse)).reverse := by
  rw [significant_eq ht (Radix.mem_convert_lt (by omega) _ _ _), ← Radix.value_eq_ofDigits,
    Radix.value_convert hs hd hroom]

end Base58

end SpendScript
