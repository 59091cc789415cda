import SpendScript.CommandLine.Arguments

/-!
# The values of options

The value of an option is one token after optional blanks, with nothing behind it: a word, or a
decimal integer of its type. A switch takes the empty text alone.

* `AfterBlanks`, `IsWord`, `IsNumeral`: tokens; `afterBlanks_iff`;
* **`word?_eq_some_iff`**, **`integer?_eq_some_iff`**: the texts that are read as tokens;
* `Setting.key`, `Setting.Fits`, `Setting.OfText`: a setting, and the texts of its value;
* **`Key.read_eq_some_iff`**: the texts that an option takes; `Key.ofName?_eq_some_iff`.
-/

namespace SpendScript.CommandLine

/-! ## Tokens -/

/-- The text is the token after optional blanks. -/
def AfterBlanks (text : String) (token : List Char) : Prop :=
  ∃ blanks, (∀ c ∈ blanks, isBlank c = true) ∧ text.toList = blanks ++ token

/-- A text with characters in it, none of which is blank. -/
def IsWord (text : String) : Prop := text ≠ "" ∧ ∀ c ∈ text.toList, isBlank c = false

/-- The characters are a decimal numeral of the number: digits, behind a sign or none. -/
inductive IsNumeral : List Char → Int → Prop
  | bare {digits : List Char} (ne : digits ≠ []) (all : ∀ c ∈ digits, c.isDigit = true) :
      IsNumeral digits (Nat.ofDigitChars 10 digits 0)
  | plus {digits : List Char} (ne : digits ≠ []) (all : ∀ c ∈ digits, c.isDigit = true) :
      IsNumeral ('+' :: digits) (Nat.ofDigitChars 10 digits 0)
  | minus {digits : List Char} (ne : digits ≠ []) (all : ∀ c ∈ digits, c.isDigit = true) :
      IsNumeral ('-' :: digits) (-(Nat.ofDigitChars 10 digits 0 : Int))

theorem isWord_iff (text : String) :
    text.isEmpty = false ∧ text.toList.any isBlank = false ↔ IsWord text := by
  rw [IsWord, List.any_eq_false, Bool.eq_false_iff, Ne, String.isEmpty_iff]
  simp only [Bool.not_eq_true]

instance (text : String) : Decidable (IsWord text) :=
  decidable_of_decidable_of_iff (isWord_iff text)

/-- A token that does not begin with a blank is what is left when the blanks are dropped. -/
theorem afterBlanks_iff {text : String} {token : List Char}
    (htoken : ∀ c, token.head? = some c → isBlank c = false) :
    AfterBlanks text token ↔ text.toList.dropWhile isBlank = token := by
  constructor
  · rintro ⟨blanks, hblanks, htext⟩
    rw [htext, List.dropWhile_append_of_pos hblanks]
    cases token with
    | nil => rfl
    | cons c token => exact List.dropWhile_cons_of_neg (by rw [htoken c rfl]; decide)
  · rintro rfl
    exact ⟨text.toList.takeWhile isBlank, List.all_eq_true.mp List.all_takeWhile,
      List.takeWhile_append_dropWhile.symm⟩

/-- **A word is taken** if it is all that follows optional blanks. -/
theorem word?_eq_some_iff {text word : String} :
    word? text = some word ↔ IsWord word ∧ AfterBlanks text word.toList := by
  have hblanks (h : IsWord word) :
      AfterBlanks text word.toList ↔ text.toList.dropWhile isBlank = word.toList :=
    afterBlanks_iff fun c hc => h.2 c (List.mem_of_head? hc)
  have hword : word? text = some word ↔
      IsWord (String.ofList (text.toList.dropWhile isBlank)) ∧
        String.ofList (text.toList.dropWhile isBlank) = word := by
    unfold word?
    rw [← isWord_iff, String.toList_ofList]
    simp
  rw [hword]
  constructor
  · rintro ⟨h, rfl⟩
    exact ⟨h, (hblanks h).mpr String.toList_ofList.symm⟩
  · rintro ⟨h, htext⟩
    rw [(hblanks h).mp htext, String.ofList_toList]
    exact ⟨h, rfl⟩

/-- Digits are neither blanks nor signs. -/
theorem not_isBlank_of_isDigit {c : Char} (h : c.isDigit = true) :
    isBlank c = false ∧ c ≠ '-' ∧ c ≠ '+' := by
  have hrange : 48 ≤ c.toNat ∧ c.toNat ≤ 57 := Char.isDigit_iff_toNat.mp h
  refine ⟨?_, ?_, ?_⟩
  · have hspace : c ≠ ' ' := by
      rintro rfl
      exact absurd hrange (by decide)
    have hcontrol : ¬ c ≤ '\r' := by
      intro hle
      have hle' : c.toNat ≤ 13 := hle
      omega
    simp [isBlank, hspace, hcontrol]
  · rintro rfl
    exact absurd hrange (by decide)
  · rintro rfl
    exact absurd hrange (by decide)

theorem IsNumeral.head_not_isBlank {cs : List Char} {v : Int} (h : IsNumeral cs v) :
    ∀ c, cs.head? = some c → isBlank c = false := by
  cases h with
  | bare _ all => exact fun c hc => (not_isBlank_of_isDigit (all c (List.mem_of_head? hc))).1
  | plus | minus =>
    rintro c hc
    obtain rfl := Option.some.inj hc
    decide

theorem decimal?_eq_some_iff {digits : List Char} {n : Nat} :
    decimal? digits = some n ↔
      (digits ≠ [] ∧ ∀ c ∈ digits, c.isDigit = true) ∧ n = Nat.ofDigitChars 10 digits 0 := by
  have hcond : (digits.isEmpty || digits.any (fun c => !c.isDigit)) = true ↔
      ¬ (digits ≠ [] ∧ ∀ c ∈ digits, c.isDigit = true) := by
    grind
  unfold decimal?
  split
  · next h => simp [hcond.mp h]
  · next h =>
    rw [and_iff_right (Decidable.not_not.mp (mt hcond.mpr h)), Option.some_inj]
    exact eq_comm

theorem map_decimal?_eq_some_iff {α : Type} {f : Nat → α} {digits : List Char} {v : α} :
    (decimal? digits).map f = some v ↔
      (digits ≠ [] ∧ ∀ c ∈ digits, c.isDigit = true) ∧ v = f (Nat.ofDigitChars 10 digits 0) := by
  rw [Option.map_eq_some_iff]
  constructor
  · rintro ⟨n, hn, rfl⟩
    obtain ⟨hdigits, rfl⟩ := decimal?_eq_some_iff.mp hn
    exact ⟨hdigits, rfl⟩
  · rintro ⟨hdigits, rfl⟩
    exact ⟨_, decimal?_eq_some_iff.mpr ⟨hdigits, rfl⟩, rfl⟩

/-- The number that characters are a numeral of. -/
def numeral? : List Char → Option Int
  | '-' :: digits => (decimal? digits).map fun n : Nat => -(n : Int)
  | '+' :: digits => (decimal? digits).map Int.ofNat
  | digits => (decimal? digits).map Int.ofNat

theorem integer?_eq (t : IntType) (text : String) :
    integer? t text =
      (numeral? (text.toList.dropWhile isBlank)).bind fun v =>
        if t.Holds v then some v else none := by
  unfold integer?
  generalize text.toList.dropWhile isBlank = cs
  split
  · next digits =>
    rw [numeral?]
    cases decimal? digits <;> rfl
  · rfl
  · next hminus hplus =>
    rw [numeral?]
    · rfl
    · exact hminus
    · exact hplus

theorem numeral?_eq_some_iff {cs : List Char} {v : Int} :
    numeral? cs = some v ↔ IsNumeral cs v := by
  constructor
  · intro h
    unfold numeral? at h
    split at h
    · obtain ⟨⟨hne, hall⟩, rfl⟩ := map_decimal?_eq_some_iff.mp h
      exact .minus hne hall
    · obtain ⟨⟨hne, hall⟩, rfl⟩ := map_decimal?_eq_some_iff.mp h
      exact .plus hne hall
    · obtain ⟨⟨hne, hall⟩, rfl⟩ := map_decimal?_eq_some_iff.mp h
      exact .bare hne hall
  · intro h
    cases h with
    | bare ne all =>
      unfold numeral?
      split
      · exact absurd rfl (not_isBlank_of_isDigit (all _ List.mem_cons_self)).2.1
      · exact absurd rfl (not_isBlank_of_isDigit (all _ List.mem_cons_self)).2.2
      · exact map_decimal?_eq_some_iff.mpr ⟨⟨ne, all⟩, rfl⟩
    | plus ne all => exact map_decimal?_eq_some_iff.mpr ⟨⟨ne, all⟩, rfl⟩
    | minus ne all => exact map_decimal?_eq_some_iff.mpr ⟨⟨ne, all⟩, rfl⟩

/-- **An integer option takes** the decimal numerals of its type after optional blanks. -/
theorem integer?_eq_some_iff {t : IntType} {text : String} {v : Int} :
    integer? t text = some v ↔
      t.Holds v ∧ ∃ numeral, IsNumeral numeral v ∧ AfterBlanks text numeral := by
  have hnumeral : (∃ numeral, IsNumeral numeral v ∧ AfterBlanks text numeral) ↔
      IsNumeral (text.toList.dropWhile isBlank) v := by
    constructor
    · rintro ⟨numeral, h, htext⟩
      rwa [(afterBlanks_iff h.head_not_isBlank).mp htext]
    · intro h
      exact ⟨_, h, (afterBlanks_iff h.head_not_isBlank).mpr rfl⟩
  rw [hnumeral, integer?_eq, Option.bind_eq_some_iff]
  constructor
  · rintro ⟨v', hv', h⟩
    split at h
    · next hholds =>
      obtain rfl := Option.some.inj h
      exact ⟨hholds, numeral?_eq_some_iff.mp hv'⟩
    · cases h
  · rintro ⟨hholds, h⟩
    exact ⟨v, numeral?_eq_some_iff.mpr h, if_pos hholds⟩

/-! ## Options -/

/-- The option that is set. -/
def Setting.key : Setting → Key
  | .amount _ => .amount
  | .input _ => .input
  | .locking _ => .locking
  | .logfile _ => .logfile
  | .quiet => .quiet
  | .trace => .trace
  | .tx _ => .tx
  | .unlocking _ => .unlocking

/-- The value is one that the option takes: an integer of its type, or a word. -/
def Setting.Fits : Setting → Prop
  | .amount value => IntType.i64.Holds value
  | .input value => IntType.i32.Holds value
  | .locking word | .logfile word | .tx word | .unlocking word => IsWord word
  | .quiet | .trace => True

instance : DecidablePred Setting.Fits
  | .amount value => inferInstanceAs (Decidable (IntType.i64.Holds value))
  | .input value => inferInstanceAs (Decidable (IntType.i32.Holds value))
  | .locking word | .logfile word | .tx word | .unlocking word =>
    inferInstanceAs (Decidable (IsWord word))
  | .quiet | .trace => isTrue trivial

/-- The text stands for the value of the setting: it is one token after optional blanks, a decimal
numeral or a word, and it is empty for a switch. -/
def Setting.OfText (text : String) (s : Setting) : Prop :=
  s.Fits ∧
    match s with
    | .amount v | .input v => ∃ numeral, IsNumeral numeral v ∧ AfterBlanks text numeral
    | .locking word | .logfile word | .tx word | .unlocking word => AfterBlanks text word.toList
    | .quiet | .trace => text = ""

namespace Key

theorem key_of_read {key : Key} {text : String} {s : Setting} (h : key.read text = some s) :
    s.key = key := by
  cases key with
  | quiet | trace =>
    obtain ⟨-, h⟩ := Option.ite_none_right_eq_some.mp h
    obtain rfl := Option.some.inj h
    rfl
  | _ =>
    obtain ⟨_, -, rfl⟩ := Option.map_eq_some_iff.mp h
    rfl

/-- **What an option takes** are the texts that stand for its values. -/
theorem read_eq_some_iff {key : Key} {text : String} {s : Setting} :
    key.read text = some s ↔ s.key = key ∧ s.OfText text := by
  have hkey : s.key.read text = some s ↔ s.OfText text := by
    cases s with
    | amount | input =>
      simp [Setting.key, read, Setting.OfText, Setting.Fits, integer?_eq_some_iff]
    | quiet | trace => simp [Setting.key, read, Setting.OfText, Setting.Fits]
    | _ => simp [Setting.key, read, Setting.OfText, Setting.Fits, word?_eq_some_iff]
  constructor
  · intro h
    obtain rfl := key_of_read h
    exact ⟨rfl, hkey.mp h⟩
  · rintro ⟨rfl, h⟩
    exact hkey.mpr h

theorem ofName?_eq_some_iff {name : String} {key : Key} :
    ofName? name = some key ↔ key.name = name := by
  constructor
  · intro h
    simpa using List.find?_some h
  · rintro rfl
    cases key <;> decide

theorem ofName?_eq_none_iff {name : String} :
    ofName? name = none ↔ ∀ key : Key, key.name ≠ name := by
  simp only [← ofName?_eq_some_iff, Ne, Option.eq_none_iff_forall_ne_some]

end Key

end SpendScript.CommandLine
