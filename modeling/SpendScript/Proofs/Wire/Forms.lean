import Mathlib.Tactic.SplitIfs
import SpendScript.Wire.Writer

/-!
# The four forms of a number

A CompactSize number is written in the shortest form that holds it, but every form that does is
read. What the longer forms cost shows in the length alone.

* `CompactSize.Form`, `Form.Holds`, `Form.encode`: a number in a given form;
* `Form.shortest`, `CompactSize.encode_eq`: the form that is written;
* `Form.width`, `Form.excess`, **`Form.excess_eq_zero_iff`**: the bytes too many.
-/

namespace SpendScript.CompactSize

/-- The forms of a number, named for the bytes that hold it. All but the first begin with a mark. -/
inductive Form
  | one
  | two
  | four
  | eight
  deriving DecidableEq, Repr

namespace Form

/-- The numbers that a form holds; in one byte the marks are left out. -/
def Holds : Form → Nat → Prop
  | .one, n => n < 0xFD
  | .two, n => n < 0x10000
  | .four, n => n < 0x100000000
  | .eight, n => n < 0x10000000000000000

def encode : Form → Nat → Bytes
  | .one, n => Bytes.ofNatLE 1 n
  | .two, n => 0xFD :: Bytes.ofNatLE 2 n
  | .four, n => 0xFE :: Bytes.ofNatLE 4 n
  | .eight, n => 0xFF :: Bytes.ofNatLE 8 n

/-- Bytes with their number in front, in the given form. -/
def prefixed (form : Form) (bs : Bytes) : Bytes := form.encode bs.length ++ bs

def shortest (n : Nat) : Form :=
  if n < 0xFD then .one
  else if n ≤ 0xFFFF then .two
  else if n ≤ 0xFFFFFFFF then .four
  else .eight

theorem holds_shortest {n : Nat} (h : n < 0x10000000000000000) : (shortest n).Holds n := by
  unfold shortest
  split
  · assumption
  split
  · change n < 0x10000
    omega
  split
  · change n < 0x100000000
    omega
  · exact h

theorem lt_of_holds {form : Form} {n : Nat} (h : form.Holds n) : n < 0x10000000000000000 := by
  cases form <;> simp only [Holds] at h <;> omega

/-- The bytes that a form takes, its mark included. -/
def width : Form → Nat
  | .one => 1
  | .two => 3
  | .four => 5
  | .eight => 9

@[simp] theorem length_encode (form : Form) (n : Nat) : (form.encode n).length = form.width := by
  cases form <;> simp [encode, width]

/-- How many bytes a form takes more than the shortest one. -/
def excess (form : Form) (n : Nat) : Nat := form.width - (shortest n).width

theorem width_shortest_le {form : Form} {n : Nat} (h : form.Holds n) :
    (shortest n).width ≤ form.width := by
  unfold shortest
  cases form <;> simp only [Holds] at h <;> split_ifs <;> simp only [width] <;> omega

theorem width_eq {form : Form} {n : Nat} (h : form.Holds n) :
    form.width = (shortest n).width + form.excess n := (Nat.add_sub_of_le (width_shortest_le h)).symm

/-- **Only the shortest form has no byte too many.** -/
theorem excess_eq_zero_iff {form : Form} {n : Nat} (h : form.Holds n) :
    form.excess n = 0 ↔ form = shortest n := by
  have hwidth := width_eq h
  constructor
  · intro hzero
    rw [hzero, Nat.add_zero] at hwidth
    revert hwidth
    cases form <;> cases shortest n <;> simp [width]
  · intro hform
    rw [← hform] at hwidth
    omega

end Form

open Form

theorem encode_eq (n : Nat) : encode n = (shortest n).encode n := by
  unfold encode shortest
  split
  · rfl
  split
  · rfl
  split <;> rfl

theorem length_encode_eq (n : Nat) : (encode n).length = (shortest n).width := by
  rw [encode_eq, Form.length_encode]

theorem Form.length_prefixed {form : Form} {bs : Bytes} (h : form.Holds bs.length) :
    (form.prefixed bs).length = (CompactSize.prefixed bs).length + form.excess bs.length := by
  rw [Form.prefixed, CompactSize.prefixed, List.length_append, List.length_append,
    Form.length_encode, length_encode_eq, width_eq h]
  omega

theorem prefixed_eq (bs : Bytes) : prefixed bs = (shortest bs.length).prefixed bs := by
  rw [prefixed, Form.prefixed, encode_eq]

end SpendScript.CompactSize
