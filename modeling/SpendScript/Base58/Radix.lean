/-!
# Change of radix in a fixed buffer

A number whose digits arrive most significant first is kept in a buffer of fixed size in another
radix. Each digit multiplies the buffer by the old radix and is added at its low end.

* `mulAdd`: one such step, with the carry that leaves the buffer;
* `convert`: all steps from an empty buffer;
* `value`: the number that a buffer holds.
-/

namespace SpendScript.Radix

/-- The number with these digits, least significant first. -/
def value (base : Nat) : List Nat → Nat
  | [] => 0
  | d :: ds => d + base * value base ds

/-- `factor` times the buffer plus a carry, and what does not fit into the buffer. -/
def mulAdd (base factor : Nat) : Nat → List Nat → List Nat × Nat
  | carry, [] => ([], carry)
  | carry, d :: ds =>
    let n := carry + factor * d
    let (ds, out) := mulAdd base factor (n / base) ds
    (n % base :: ds, out)

/-- The buffer, least significant digit first, after all digits in radix `source`. -/
def convert (source target size : Nat) (digits : List Nat) : List Nat :=
  digits.foldl (fun buffer d => (mulAdd target source d buffer).1) (List.replicate size 0)

@[simp] theorem length_mulAdd (base factor carry : Nat) (buffer : List Nat) :
    (mulAdd base factor carry buffer).1.length = buffer.length := by
  induction buffer generalizing carry with
  | nil => rfl
  | cons d ds ih => simp [mulAdd, ih]

end SpendScript.Radix
