import Mathlib.Data.List.Induction
import Mathlib.Data.Nat.Digits.Defs
import SpendScript.Base58.Radix

/-!
# The number in the buffer

A buffer that is large enough for all the digits to come holds, after each of them, the number of
the digits read so far, and nothing is ever carried out of it.

* **`value_mulAdd`**: a step multiplies and adds, up to the carry that leaves;
* `mem_mulAdd_lt`, `mem_convert_lt`: what a buffer holds are digits;
* `mulAdd_convert`: one more digit;
* **`value_convert`**: the number in the buffer; **`carry_eq_zero`**: no carry leaves.
-/

namespace SpendScript.Radix

theorem value_eq_ofDigits (base : Nat) (buffer : List Nat) :
    value base buffer = Nat.ofDigits base buffer := by
  induction buffer with
  | nil => rfl
  | cons d ds ih => rw [value, Nat.ofDigits_cons, ih]

/-! ## One step -/

/-- **One step loses nothing.** What leaves the buffer counts with the weight of its size. -/
theorem value_mulAdd (base factor carry : Nat) (buffer : List Nat) :
    value base (mulAdd base factor carry buffer).1 +
        base ^ buffer.length * (mulAdd base factor carry buffer).2 =
      factor * value base buffer + carry := by
  induction buffer generalizing carry with
  | nil => simp [mulAdd, value]
  | cons d ds ih =>
    have h := ih ((carry + factor * d) / base)
    have hdiv := Nat.div_add_mod (carry + factor * d) base
    simp only [mulAdd, value, List.length_cons, Nat.pow_succ]
    generalize mulAdd base factor ((carry + factor * d) / base) ds = r at h
    calc (carry + factor * d) % base + base * value base r.1 + base ^ ds.length * base * r.2
        = (carry + factor * d) % base +
            base * (value base r.1 + base ^ ds.length * r.2) := by grind
      _ = factor * (d + base * value base ds) + carry := by rw [h]; grind

/-- A step whose number still fits carries nothing out. -/
theorem mulAdd_of_lt {base factor carry : Nat} {buffer : List Nat}
    (h : factor * value base buffer + carry < base ^ buffer.length) :
    value base (mulAdd base factor carry buffer).1 = factor * value base buffer + carry ∧
      (mulAdd base factor carry buffer).2 = 0 := by
  have hv := value_mulAdd base factor carry buffer
  have hout : (mulAdd base factor carry buffer).2 = 0 := by
    by_contra hne
    have hle := Nat.le_mul_of_pos_right (base ^ buffer.length) (Nat.pos_of_ne_zero hne)
    omega
  rw [hout, Nat.mul_zero, Nat.add_zero] at hv
  exact ⟨hv, hout⟩

theorem mem_mulAdd_lt {base : Nat} (hb : 0 < base) (factor carry : Nat) (buffer : List Nat) :
    ∀ d ∈ (mulAdd base factor carry buffer).1, d < base := by
  induction buffer generalizing carry with
  | nil => intro d hd; simp [mulAdd] at hd
  | cons d ds ih =>
    intro e he
    simp only [mulAdd, List.mem_cons] at he
    rcases he with rfl | he
    · exact Nat.mod_lt _ hb
    · exact ih _ e he

/-! ## All steps -/

theorem convert_concat (source target size : Nat) (digits : List Nat) (d : Nat) :
    convert source target size (digits ++ [d]) =
      (mulAdd target source d (convert source target size digits)).1 := by
  rw [convert, List.foldl_append]
  rfl

@[simp] theorem length_convert (source target size : Nat) (digits : List Nat) :
    (convert source target size digits).length = size := by
  induction digits using List.reverseRecOn with
  | nil => exact List.length_replicate
  | append_singleton digits d ih => rw [convert_concat, length_mulAdd, ih]

theorem mem_convert_lt {target : Nat} (ht : 0 < target) (source size : Nat) (digits : List Nat) :
    ∀ d ∈ convert source target size digits, d < target := by
  induction digits using List.reverseRecOn with
  | nil =>
    intro d hd
    rw [List.eq_of_mem_replicate hd]
    exact ht
  | append_singleton digits d ih =>
    rw [convert_concat]
    exact mem_mulAdd_lt ht _ _ _

variable {source target size : Nat} {digits : List Nat}

/-- One more digit, in a buffer that holds the number so far and has room for all numbers of one
more digit. -/
theorem mulAdd_convert {d : Nat} (hs : 1 < source) (hd : ∀ x ∈ digits ++ [d], x < source)
    (hroom : source ^ (digits ++ [d]).length ≤ target ^ size)
    (hv : value target (convert source target size digits) = Nat.ofDigits source digits.reverse) :
    value target (mulAdd target source d (convert source target size digits)).1 =
        Nat.ofDigits source (digits ++ [d]).reverse ∧
      (mulAdd target source d (convert source target size digits)).2 = 0 := by
  have hlt : Nat.ofDigits source (digits ++ [d]).reverse < target ^ size := by
    refine Nat.lt_of_lt_of_le ?_ hroom
    have h := Nat.ofDigits_lt_base_pow_length (l := (digits ++ [d]).reverse) hs fun x hx =>
      hd x (List.mem_reverse.mp hx)
    rwa [List.length_reverse] at h
  rw [List.reverse_append, List.reverse_singleton, List.singleton_append, Nat.ofDigits_cons,
    Nat.add_comm, ← hv] at hlt ⊢
  exact mulAdd_of_lt (by rwa [length_convert])

/-- **The number in the buffer** is the one with the digits read, if the buffer has room for all
numbers of that many digits. -/
theorem value_convert (hs : 1 < source) (hd : ∀ d ∈ digits, d < source)
    (hroom : source ^ digits.length ≤ target ^ size) :
    value target (convert source target size digits) = Nat.ofDigits source digits.reverse := by
  induction digits using List.reverseRecOn with
  | nil =>
    change value target (List.replicate size 0) = 0
    rw [value_eq_ofDigits, Nat.ofDigits_replicate_zero]
  | append_singleton digits d ih =>
    have hroom' : source ^ digits.length ≤ target ^ size := by
      refine Nat.le_trans (Nat.pow_le_pow_right (by omega) ?_) hroom
      simp
    have hv := ih (fun x hx => hd x (List.mem_append_left _ hx)) hroom'
    rw [convert_concat]
    exact (mulAdd_convert hs hd hroom hv).1

/-- **No carry leaves the buffer** at any digit, if it has room for all numbers of as many digits
as there are. -/
theorem carry_eq_zero {before : List Nat} {d : Nat} (after : List Nat) (hs : 1 < source)
    (hd : ∀ x ∈ before ++ d :: after, x < source)
    (hroom : source ^ (before ++ d :: after).length ≤ target ^ size) :
    (mulAdd target source d (convert source target size before)).2 = 0 := by
  rw [List.append_cons] at hd hroom
  have hnow : source ^ (before ++ [d]).length ≤ target ^ size := by
    refine Nat.le_trans (Nat.pow_le_pow_right (by omega) ?_) hroom
    simp
  have hbefore : source ^ before.length ≤ target ^ size := by
    refine Nat.le_trans (Nat.pow_le_pow_right (by omega) ?_) hnow
    simp
  have hd' : ∀ x ∈ before ++ [d], x < source := fun x hx => hd x (List.mem_append_left _ hx)
  have hv := value_convert hs (fun x hx => hd' x (List.mem_append_left _ hx)) hbefore
  exact (mulAdd_convert hs hd' hnow hv).2

end SpendScript.Radix
