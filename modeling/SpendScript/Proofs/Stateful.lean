/-!
# Computations that may fail in the middle

Actions on the stack, decoders and encoders are computations on a state. When one fails, the state
that it has reached stays. These are the laws of what they do one after the other.

* `Stateful.apply`: the result and the state;
* `Stateful.apply_bind_of_ok`, `apply_bind_of_error`: a failure ends the whole;
* **`Stateful.apply_bind_eq_ok`**, `apply_bind_eq_error`: what the whole says of its parts.
-/

namespace SpendScript.Stateful

variable {ε σ α β : Type} {x : ExceptT ε (StateM σ) α} {f : α → ExceptT ε (StateM σ) β} {s s' : σ}

/-- What a computation results in, and the state in which it ends. -/
def apply (x : ExceptT ε (StateM σ) α) (s : σ) : Except ε α × σ := x.run.run s

theorem apply_bind_of_ok {a : α} (h : apply x s = (.ok a, s')) :
    apply (x >>= f) s = apply (f a) s' := by
  change ExceptT.bindCont f (apply x s).1 (apply x s).2 = _
  rw [h]
  rfl

theorem apply_bind_of_error {e : ε} (h : apply x s = (.error e, s')) :
    apply (x >>= f) s = (.error e, s') := by
  change ExceptT.bindCont f (apply x s).1 (apply x s).2 = _
  rw [h]
  rfl

theorem apply_bind_eq_ok {b : β} :
    apply (x >>= f) s = (.ok b, s') ↔
      ∃ a s₁, apply x s = (.ok a, s₁) ∧ apply (f a) s₁ = (.ok b, s') := by
  rcases h : apply x s with ⟨e | a, s₁⟩
  · simp [apply_bind_of_error h]
  · simp [apply_bind_of_ok h, and_assoc]

theorem apply_bind_eq_error {e : ε} :
    apply (x >>= f) s = (.error e, s') ↔
      apply x s = (.error e, s') ∨
        ∃ a s₁, apply x s = (.ok a, s₁) ∧ apply (f a) s₁ = (.error e, s') := by
  rcases h : apply x s with ⟨e' | a, s₁⟩
  · simp [apply_bind_of_error h]
  · simp [apply_bind_of_ok h, and_assoc]

end SpendScript.Stateful
