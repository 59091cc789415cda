import SpendScript.Script.Fault

/-!
# The operand stack

All items lie back to back in one buffer; the stack knows where each begins and how long it is. It
knows so by ints of 32 bits, which are made of greater numbers without a check: of a number that
does not fit they keep the low bits.

* `Span`, `Stack`;
* `Stack.slice`, `Stack.top`, `Stack.peek`, `Stack.number`: a look at an item;
* `Stack.append`, `Stack.push`: an item more;
* `Stack.drop`, `Stack.trim`: items less, and the buffer without their bytes;
* `Stack.toList`: all items, as an observer sees them;
* `Ints`, `Stack.appendInts`, `Stack.trimInts`: whether the ints that are made are exact.
-/

namespace SpendScript

/-- The place of an item in the buffer. -/
structure Span where
  offset : Int32
  size : Int32
  deriving DecidableEq, Repr

/-- Where the item ends. -/
def Span.stop (span : Span) : Int32 := span.offset + span.size

/-- Items in a buffer, the topmost last. -/
structure Stack where
  spans : Array Span
  buffer : ByteArray

namespace Stack

def empty : Stack := ⟨#[], .empty⟩

variable (s : Stack)

def size : Int32 := .ofNat s.spans.size

def isEmpty : Bool := s.spans.isEmpty

/-! ## Looking -/

/-- The bytes at a place. -/
def slice (span : Span) : Except AccessError ByteArray :=
  let start := span.offset.toInt
  let length := span.size.toInt
  if 0 ≤ start ∧ 0 ≤ length ∧ start + length ≤ s.buffer.size then
    .ok (s.buffer.extract start.toNat (start + length).toNat)
  else .error (.outside start length)

/-- The span at an index from the bottom. -/
def spanAt (index : Int32) : Except AccessError Span :=
  if index < 0 then .error (.noElement index.toInt)
  else
    match s.spans[index.toInt.toNat]? with
    | none => .error (.noElement index.toInt)
    | some span => .ok span

def top : Except Interruption ByteArray :=
  match s.spans.back? with
  | none => .error (.fault .topOfEmpty)
  | some span => (s.slice span).mapError .access

/-- The item at a position, counted from the top. -/
def peek (position : Int) : Except Interruption ByteArray :=
  if position < 0 ∨ s.size.toInt ≤ position then .error (.fault (.noItem position))
  else (do s.slice (← s.spanAt (.ofInt (s.spans.size - 1 - position)))).mapError .access

def number (position : Int) : Except Interruption Int := do
  (ScriptNumber.operand (Bytes.ofArray (← s.peek position))).mapError .fault

/-! ## Changing -/

/-- The stack with one more item on top. -/
def append (bytes : ByteArray) : Stack :=
  let ⟨spans, buffer⟩ := s
  ⟨spans.push ⟨.ofNat buffer.size, .ofNat bytes.size⟩, buffer ++ bytes⟩

def push (bytes : Bytes) : Stack := s.append bytes.toByteArray

/-- Gives up the places of the `count` topmost items, if there are that many. -/
def drop (count : Nat) : Except Fault Stack :=
  if s.size.toInt < count then .error (.popBeyond count s.size.toInt)
  else .ok { s with spans := s.spans.shrink (s.spans.size - count) }

/-- Where the topmost item ends. -/
def stop : Int32 := (s.spans.back?).elim 0 Span.stop

/-- The buffer cut, or filled up with zeros, to where the topmost item ends. -/
def trim : Except AccessError Stack :=
  let length := s.stop.toInt
  if length < 0 then .error (.badLength length)
  else
    let zeros : ByteArray := ⟨Array.replicate (length.toNat - s.buffer.size) 0⟩
    .ok { s with buffer := s.buffer.extract 0 length.toNat ++ zeros }

/-! ## Observing -/

/-- The items, bottom first; nothing is seen of one whose place lies outside of the buffer. -/
def toList : List Bytes :=
  s.spans.toList.map fun span => ((s.slice span).toOption.map Bytes.ofArray).getD []

end Stack

/-! ## Exactness -/

/-- Whether a number is an int of 32 bits. -/
def isInt32 (n : Int) : Bool := -0x80000000 ≤ n && n < 0x80000000

/-- Whether the ints that a stack was kept by have been the numbers that they were made of. No
computation asks for it: it is recorded for what there is to say of runs. -/
structure Ints where
  /-- Offsets, sizes and ends of items. -/
  places : Bool
  /-- Numbers of items. -/
  counts : Bool
  deriving DecidableEq, Repr

namespace Ints

def exact : Ints := ⟨true, true⟩

def and (a b : Ints) : Ints := ⟨a.places && b.places, a.counts && b.counts⟩

theorem eq_exact_iff {a : Ints} : a = .exact ↔ a.places = true ∧ a.counts = true := by
  obtain ⟨places, counts⟩ := a
  rw [exact, mk.injEq]

@[simp] theorem and_exact (a : Ints) : a.and .exact = a := by
  rw [and, exact, Bool.and_true, Bool.and_true]

@[simp] theorem exact_and (a : Ints) : exact.and a = a := rfl

theorem and_assoc (a b c : Ints) : (a.and b).and c = a.and (b.and c) := by
  simp only [and, Bool.and_assoc]

theorem and_eq_exact_iff {a b : Ints} : a.and b = .exact ↔ a = .exact ∧ b = .exact := by
  simp only [eq_exact_iff, and, Bool.and_eq_true]
  exact and_and_and_comm

end Ints

namespace Stack

variable (s : Stack)

/-- The ints of one more item: its offset, its size, and how many items there are with it. -/
def appendInts (bytes : ByteArray) : Ints where
  places := isInt32 s.buffer.size && isInt32 bytes.size
  counts := isInt32 (s.spans.size + 1)

/-- The int that the buffer is cut to: the sum of an offset and a size. -/
def trimInts : Ints where
  places := (s.spans.back?).all fun span => isInt32 (span.offset.toInt + span.size.toInt)
  counts := true

end Stack

end SpendScript
