import SpendScript.Proofs.CommandLine.Decision

/-!
# Settings as arguments

A setting is written as an argument: the name of its option after two dashes and, unless it is a
switch, its value after an equals sign. Arguments that are written so are read as these settings,
one on top of the other.

* `Setting.text`, `Setting.argument`: how a setting is written;
* `isNumeral_toString`, `Setting.ofText_text`: the text stands for the value;
* `Argument.sets_argument`, **`Decision.ofArguments_argument`**: arguments are read as settings.
-/

namespace SpendScript.CommandLine

namespace Setting

/-- The value in text: numbers in decimal digits, after a minus sign if they are negative. -/
def text : Setting → String
  | .amount value | .input value => toString value
  | .locking word | .logfile word | .tx word | .unlocking word => word
  | .quiet | .trace => ""

/-- The argument that makes the setting. -/
def argument (s : Setting) : String :=
  if s.key.isSwitch then "--" ++ s.key.name else "--" ++ s.key.name ++ "=" ++ s.text

end Setting

/-! ## Values -/

theorem afterBlanks_self (text : String) : AfterBlanks text text.toList := ⟨[], by simp, rfl⟩

/-- **The decimal digits of a number are a numeral of it.** -/
theorem isNumeral_toString (v : Int) : IsNumeral (toString v).toList v := by
  have hdigits (n : Nat) : ∀ c ∈ Nat.toDigits 10 n, c.isDigit = true := fun _ hc =>
    Nat.isDigit_of_mem_toDigits (by decide) (by decide) hc
  have hvalue (n : Nat) : Nat.ofDigitChars 10 (Nat.toDigits 10 n) 0 = n :=
    Nat.ofDigitChars_toDigits (by decide) (by decide)
  cases v with
  | ofNat n =>
    have htext : (toString (Int.ofNat n)).toList = Nat.toDigits 10 n := Nat.toList_repr
    have hbare := IsNumeral.bare Nat.toDigits_ne_nil (hdigits n)
    rw [hvalue] at hbare
    rw [htext]
    exact hbare
  | negSucc n =>
    have htext : (toString (Int.negSucc n)).toList = '-' :: Nat.toDigits 10 (n + 1) := by
      change ("-" ++ Nat.repr (n + 1)).toList = _
      rw [String.toList_append, Nat.toList_repr]
      rfl
    have hminus := IsNumeral.minus Nat.toDigits_ne_nil (hdigits (n + 1))
    rw [hvalue] at hminus
    rw [htext]
    exact hminus

theorem Setting.ofText_text {s : Setting} (h : s.Fits) : s.OfText s.text := by
  refine ⟨h, ?_⟩
  cases s with
  | amount v | input v => exact ⟨_, isNumeral_toString v, afterBlanks_self _⟩
  | quiet | trace => rfl
  | _ => exact afterBlanks_self _

/-! ## Arguments -/

namespace Argument

theorem spells_argument (s : Setting) : Spells s.argument s.key.name s.text := by
  have hfront : '=' ∉ ("--" ++ s.key.name).toList := by cases s.key <;> decide
  have hdashed : Dashed ("--" ++ s.key.name).toList s.key.name.toList := by
    rw [String.toList_append]
    exact .two _
  refine ⟨_, hfront, hdashed, ?_⟩
  cases hswitch : s.key.isSwitch with
  | true =>
    refine Or.inl ⟨by rw [Setting.argument, hswitch, if_pos rfl], ?_⟩
    cases s with
    | quiet | trace => rfl
    | _ => cases hswitch
  | false =>
    refine Or.inr ?_
    rw [Setting.argument, hswitch, if_neg Bool.false_ne_true, String.toList_append,
      String.toList_append, List.append_assoc]
    rfl

/-- **The argument of a setting makes it.** -/
theorem sets_argument {s : Setting} (h : s.Fits) : Sets s.argument s :=
  ⟨s.text, spells_argument s, Setting.ofText_text h⟩

end Argument

/-- **Arguments are read as the settings that they make**, each on top of those before it. -/
theorem Decision.ofArguments_argument {settings : List Setting} (h : ∀ s ∈ settings, s.Fits)
    (o : Options) :
    ofArguments o (settings.map Setting.argument) = .proceed (settings.foldl Options.set o) := by
  refine ofArguments_eq_proceed_iff.mpr ⟨settings, ?_, rfl⟩
  rw [List.forall₂_map_left_iff, List.forall₂_same]
  exact fun s hs => Argument.sets_argument (h s hs)

end SpendScript.CommandLine
