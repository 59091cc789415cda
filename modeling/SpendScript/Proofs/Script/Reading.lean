import SpendScript.Proofs.Script.Units

/-!
# Reading a script call by call

Between the readings of a script anyone may look at the next byte. Whatever the calls are, the
instructions read so far lie at the front of the script, in order and without gaps, up to the place
where the tokenizer stands. It stops for good at the end, or at a byte that announces more data than
follows it.

* `Tokenizer.Call`, `Tokenizer.Reply`, `Tokenizer.run`: calls and what they return;
* `Tokenizer.Reads`, **`Tokenizer.reads_next`**: what one reading can come to;
* `Tokenizer.Stands`: a place in a script, behind instructions;
* `Tokenizer.Session`, **`Tokenizer.Session.call`**: what each call keeps;
* **`Tokenizer.run_ofBytes`**: any calls on a script.
-/

namespace SpendScript

namespace Tokenizer

/-! ## Calls -/

/-- A look at the next byte, or the reading of the next instruction. -/
inductive Call
  | peek
  | next
  deriving DecidableEq, Repr

/-- What a call returns. -/
inductive Reply
  | peeked (byte? : Option UInt8)
  | read (instruction? : Option Instruction)
  deriving DecidableEq, Repr

def call (t : Tokenizer) : Call → Reply × Tokenizer
  | .peek => (.peeked t.peek?, t)
  | .next => (.read t.next.1, t.next.2)

/-- What the calls return, and the place after the last one. -/
def run (t : Tokenizer) : List Call → List Reply × Tokenizer
  | [] => ([], t)
  | c :: calls =>
    let later := (t.call c).2.run calls
    ((t.call c).1 :: later.1, later.2)

/-- What a reading has returned; nothing for a look. -/
def Reply.reading? : Reply → Option (Option Instruction)
  | .peeked _ => none
  | .read instruction? => some instruction?

/-- What the readings among the calls have returned. -/
def readings (replies : List Reply) : List (Option Instruction) :=
  replies.filterMap Reply.reading?

/-- The instructions that have been read. -/
def instructions (replies : List Reply) : List Instruction := (readings replies).filterMap id

/-- The bytes of instructions, one after the other. -/
def bytesOf (instructions : List Instruction) : Bytes := instructions.flatMap Instruction.bytes

/-! ## One reading -/

/-- What one reading can come to: nothing at the end, an instruction with the data that its byte
announces, or nothing for want of such data, and then the rest is skipped. -/
inductive Reads (t : Tokenizer) : Option Instruction × Tokenizer → Prop
  | ended (rest : t.rest = []) : Reads t (none, t)
  | found (opcode : UInt8) (data rest : Bytes) (length : data.length = announced opcode)
      (front : t.rest = opcode :: data ++ rest) :
      Reads t (some ⟨opcode, t.offset, data⟩,
        ⟨t.offset + (opcode :: data).length, rest, t.error?⟩)
  | cut (opcode : UInt8) (rest : Bytes) (push : isPushSize opcode = true)
      (short : rest.length < opcode.toNat) (front : t.rest = opcode :: rest) :
      Reads t (none,
        ⟨t.offset + t.rest.length, [], some ⟨.truncatedPush, t.offset, opcode⟩⟩)

/-- **A reading** comes to one of the three. -/
theorem reads_next (t : Tokenizer) : Reads t t.next := by
  obtain ⟨offset, rest, error?⟩ := t
  cases rest with
  | nil => exact .ended rfl
  | cons b rest =>
    obtain ⟨data, rest', rfl, hlength⟩ | ⟨hp, hr⟩ := announced_or_short b rest
    · rw [← List.cons_append, next_of_announced hlength]
      exact .found b data rest' hlength rfl
    · rw [next_of_short hp hr]
      exact .cut b rest hp hr rfl

/-! ## Places in a script -/

/-- A place in a script: right behind the instructions that have been read, or at the end because
the byte behind them announces more data than follows it. -/
inductive Stands (script : Bytes) (read : List Instruction) (t : Tokenizer) : Prop
  | behind (front : script = bytesOf read ++ t.rest) (offset : t.offset = (bytesOf read).length)
      (error : t.error? = none)
  | cut (opcode : UInt8) (rest : Bytes) (push : isPushSize opcode = true)
      (short : rest.length < opcode.toNat) (front : script = bytesOf read ++ opcode :: rest)
      (ended : t.rest = []) (offset : t.offset = script.length)
      (error : t.error? = some ⟨.truncatedPush, (bytesOf read).length, opcode⟩)

/-- Each instruction knows how many bytes lie before it and has the data that its byte announces. -/
def Placed (read : List Instruction) : Prop :=
  ∀ (n : Nat) (i : Instruction), read[n]? = some i →
    i.offset = (bytesOf (read.take n)).length ∧ i.data.length = announced i.opcode

@[simp] theorem bytesOf_concat (read : List Instruction) (i : Instruction) :
    bytesOf (read ++ [i]) = bytesOf read ++ i.bytes := by
  rw [bytesOf, bytesOf, List.flatMap_append, List.flatMap_singleton]

theorem length_le_length_bytesOf (read : List Instruction) :
    read.length ≤ (bytesOf read).length := by
  induction read with
  | nil => exact Nat.le_refl 0
  | cons i read ih =>
    have hpos : 0 < i.bytes.length := Nat.succ_pos _
    rw [bytesOf, List.flatMap_cons, ← bytesOf, List.length_append, List.length_cons]
    omega

theorem Placed.concat {read : List Instruction} (h : Placed read) {i : Instruction}
    (hoffset : i.offset = (bytesOf read).length) (hdata : i.data.length = announced i.opcode) :
    Placed (read ++ [i]) := by
  intro n j hj
  rcases Nat.lt_trichotomy n read.length with hn | rfl | hn
  · rw [List.getElem?_append_left hn] at hj
    rw [List.take_append_of_le_length (Nat.le_of_lt hn)]
    exact h n j hj
  · rw [List.getElem?_concat_length] at hj
    obtain rfl := Option.some.inj hj
    rw [List.take_left' rfl]
    exact ⟨hoffset, hdata⟩
  · rw [List.getElem?_eq_none (by rw [List.length_append, List.length_singleton]; omega)] at hj
    cases hj

/-! ## Sessions -/

variable {script : Bytes} {replies : List Reply} {read : List Instruction} {stops : Nat}
  {t : Tokenizer}

/-- What has been returned since the beginning of a script, and where that has led: `read` are the
instructions, and after them readings have returned nothing `stops` times. -/
structure Session (script : Bytes) (replies : List Reply) (read : List Instruction) (stops : Nat)
    (t : Tokenizer) : Prop where
  stands : Stands script read t
  placed : Placed read
  readings : readings replies = read.map some ++ List.replicate stops none
  stopped : stops ≠ 0 → t.rest = []
  cut : t.error? ≠ none → stops ≠ 0

theorem session_ofBytes (script : Bytes) : Session script [] [] 0 (ofBytes script) where
  stands := .behind rfl rfl rfl
  placed := fun _ _ h => by cases h
  readings := rfl
  stopped := fun h => absurd rfl h
  cut := fun h => absurd rfl h

theorem readings_concat_read (replies : List Reply) (i? : Option Instruction) :
    readings (replies ++ [.read i?]) = readings replies ++ [i?] :=
  List.filterMap_append

theorem readings_concat_peeked (replies : List Reply) (b? : Option UInt8) :
    readings (replies ++ [.peeked b?]) = readings replies :=
  List.filterMap_append.trans (List.append_nil _)

theorem Session.instructions_eq (h : Session script replies read stops t) :
    instructions replies = read := by
  rw [instructions, h.readings, List.filterMap_append, List.filterMap_map]
  simp

theorem Session.readings_concat_none (h : Session script replies read stops t) :
    Tokenizer.readings (replies ++ [.read none]) =
      read.map some ++ List.replicate (stops + 1) none := by
  rw [readings_concat_read, h.readings, List.append_assoc, ← List.replicate_succ']

/-- **A reading keeps the session**: an instruction is one more that has been read, nothing is one
more stop. -/
theorem Session.next (h : Session script replies read stops t) :
    ∃ read' stops', Session script (replies ++ [.read t.next.1]) read' stops' t.next.2 := by
  obtain ⟨i?, t', hnext⟩ : ∃ i? t', t.next = (i?, t') := ⟨_, _, rfl⟩
  have hreads := t.reads_next
  rw [hnext] at hreads ⊢
  cases hreads with
  | ended hrest =>
    exact ⟨read, stops + 1, h.stands, h.placed, h.readings_concat_none, fun _ => hrest,
      fun _ => stops.succ_ne_zero⟩
  | found opcode data rest hlength hfront =>
    have hne : t.rest ≠ [] := hfront ▸ List.cons_ne_nil _ _
    -- readings stop at the end alone, so none has stopped yet
    have hstops : stops = 0 := by
      by_cases hzero : stops = 0
      · exact hzero
      · exact absurd (h.stopped hzero) hne
    cases h.stands with
    | behind hscript hoffset herror =>
      refine ⟨read ++ [⟨opcode, t.offset, data⟩], 0, .behind ?_ ?_ herror,
        h.placed.concat hoffset hlength, ?_, fun hzero => absurd rfl hzero,
        fun hcut => absurd herror hcut⟩
      · rw [bytesOf_concat, hscript, hfront, List.append_assoc]
        rfl
      · rw [bytesOf_concat, List.length_append, ← hoffset]
        rfl
      · rw [readings_concat_read, h.readings, hstops, List.map_append]
        simp
    | cut _ _ _ _ _ hended => exact absurd hended hne
  | cut opcode rest hpush hshort hfront =>
    cases h.stands with
    | behind hscript hoffset herror =>
      refine ⟨read, stops + 1, .cut opcode rest hpush hshort (hfront ▸ hscript) rfl ?_ ?_,
        h.placed, h.readings_concat_none, fun _ => rfl, fun _ => stops.succ_ne_zero⟩
      · rw [hscript, List.length_append, ← hoffset]
      · rw [← hoffset]
    | cut _ _ _ _ _ hended => exact absurd (hended.symm.trans hfront) (List.cons_ne_nil _ _).symm

/-- **Each call keeps the session**; a look changes nothing. -/
theorem Session.call (h : Session script replies read stops t) (c : Call) :
    ∃ read' stops', Session script (replies ++ [(t.call c).1]) read' stops' (t.call c).2 := by
  cases c with
  | peek =>
    exact ⟨read, stops, h.stands, h.placed, (readings_concat_peeked _ _).trans h.readings,
      h.stopped, h.cut⟩
  | next => exact h.next

/-- **Any calls keep the session.** -/
theorem Session.run (h : Session script replies read stops t) (calls : List Call) :
    ∃ read' stops', Session script (replies ++ (t.run calls).1) read' stops' (t.run calls).2 := by
  induction calls generalizing replies read stops t with
  | nil => exact ⟨read, stops, by rwa [run, List.append_nil]⟩
  | cons c calls ih =>
    obtain ⟨read', stops', h'⟩ := h.call c
    have hcalls := ih h'
    rwa [List.append_assoc] at hcalls

/-! ## What a session tells -/

theorem Stands.rest_eq (h : Stands script read t) :
    t.offset ≤ script.length ∧ t.rest = script.drop t.offset := by
  cases h with
  | behind front offset _ =>
    constructor
    · rw [offset, front, List.length_append]
      omega
    · rw [offset, front, List.drop_left' rfl]
  | cut _ _ _ _ _ ended offset _ =>
    exact ⟨Nat.le_of_eq offset, by rw [ended, offset, List.drop_length]⟩

theorem Stands.bytesOf_prefix (h : Stands script read t) : bytesOf read <+: script := by
  cases h with
  | behind front => exact ⟨t.rest, front.symm⟩
  | cut opcode rest _ _ front => exact ⟨opcode :: rest, front.symm⟩

theorem Stands.bytesOf_eq (h : Stands script read t) (herror : t.error? = none) :
    bytesOf read = script.take t.offset := by
  cases h with
  | behind front offset _ => rw [offset, front, List.take_left' rfl]
  | cut _ _ _ _ _ _ _ error =>
    rw [herror] at error
    cases error

/-- **The error** is there once readings have stopped at a byte that announces more data than
follows it, and names this byte. -/
theorem Session.error?_eq_some_iff (h : Session script replies read stops t) {e : ParseError} :
    t.error? = some e ↔
      stops ≠ 0 ∧ e.error = .truncatedPush ∧ e.offset = (bytesOf read).length ∧
        ∃ rest, script = bytesOf read ++ e.opcode :: rest ∧ isPushSize e.opcode = true ∧
          rest.length < e.opcode.toNat := by
  constructor
  · intro he
    have hstops : stops ≠ 0 := h.cut (he ▸ Option.some_ne_none e)
    cases h.stands with
    | behind _ _ error =>
      rw [error] at he
      cases he
    | cut opcode rest push short front _ _ error =>
      obtain rfl := Option.some.inj (error.symm.trans he)
      exact ⟨hstops, rfl, rfl, rest, front, push, short⟩
  · obtain ⟨kind, offset, opcode⟩ := e
    rintro ⟨hstops, rfl, rfl, rest, hscript, -, -⟩
    cases h.stands with
    | behind front _ _ =>
      rw [h.stopped hstops, List.append_nil] at front
      have hlength := congrArg List.length (front.symm.trans hscript)
      rw [List.length_append, List.length_cons] at hlength
      omega
    | cut _ _ _ _ front _ _ error =>
      obtain ⟨rfl, rfl⟩ := List.cons.inj (List.append_cancel_left (front.symm.trans hscript))
      exact error

/-- At the end no call changes anything. -/
theorem run_of_rest_eq_nil (h : t.rest = []) (calls : List Call) : (t.run calls).2 = t := by
  have hnext : t.next = (none, t) := by
    rw [Tokenizer.next, h]
  induction calls with
  | nil => rfl
  | cons c calls ih =>
    cases c with
    | peek => exact ih
    | next =>
      rw [run, call, hnext]
      exact ih

theorem Stands.rest_eq_nil (h : Stands script read t) (herror : t.error? ≠ none) : t.rest = [] := by
  cases h with
  | behind _ _ error => exact absurd error herror
  | cut _ _ _ _ _ ended => exact ended

theorem Session.none_mem_readings_iff (h : Session script replies read stops t) :
    none ∈ Tokenizer.readings replies ↔ stops ≠ 0 := by
  rw [h.readings]
  simp

/-- **Any calls on a script.** The instructions read so far lie at the front of the script, each
with its data and with the number of bytes before it, and without an error they reach up to the
cursor. A look shows the byte at the cursor, which the next instruction begins with, and changes
nothing. There are no more instructions than bytes; a reading returns nothing at the end alone, and
all later ones do. The error is there exactly if readings have stopped at a byte that announces more
data than follows it; it names that byte and its place behind the instructions, and no later call
changes it. -/
theorem run_ofBytes (script : Bytes) (calls : List Call) :
    let replies := ((ofBytes script).run calls).1
    let t := ((ofBytes script).run calls).2
    let read := instructions replies
    (bytesOf read <+: script ∧ ∀ (n : Nat) (i : Instruction), read[n]? = some i →
      i.offset = (bytesOf (read.take n)).length ∧ i.data.length = announced i.opcode) ∧
    (t.offset ≤ script.length ∧ t.rest = script.drop t.offset ∧
      (t.error? = none → bytesOf read = script.take t.offset)) ∧
    (t.call .peek = (.peeked script[t.offset]?, t) ∧
      ∀ i t', t.next = (some i, t') → script[t.offset]? = some i.opcode) ∧
    (read.length ≤ script.length ∧ (none ∈ readings replies → t.offset = script.length) ∧
      ∃ stops, readings replies = read.map some ++ List.replicate stops none) ∧
    (∀ e, t.error? = some e ↔
      none ∈ readings replies ∧ e.error = .truncatedPush ∧ e.offset = (bytesOf read).length ∧
        ∃ rest, script = bytesOf read ++ e.opcode :: rest ∧
          (1 ≤ e.opcode.toNat ∧ e.opcode.toNat ≤ 75) ∧ rest.length < e.opcode.toNat) ∧
    ∀ e later, t.error? = some e → (t.run later).2.error? = some e := by
  intro replies t read
  obtain ⟨read', stops, h⟩ := (session_ofBytes script).run calls
  obtain rfl : read = read' := h.instructions_eq
  obtain ⟨hle, hrest⟩ := h.stands.rest_eq
  have hpeek : t.peek? = script[t.offset]? := by
    rw [peek?, hrest, List.head?_drop]
  have hlies := h.stands.bytesOf_prefix
  refine ⟨⟨hlies, h.placed⟩, ⟨hle, hrest, h.stands.bytesOf_eq⟩, ⟨?_, fun i t' hnext => ?_⟩,
    ⟨Nat.le_trans (length_le_length_bytesOf _) hlies.length_le, fun hnone => ?_, stops,
      h.readings⟩, fun e => ?_,
    fun e later he => ?_⟩
  · rw [call, hpeek]
  · have hreads := t.reads_next
    rw [hnext] at hreads
    cases hreads with
    | found opcode data rest hlength hfront =>
      rw [← hpeek, peek?, hfront]
      rfl
  · have hended : script.drop t.offset = [] :=
      hrest.symm.trans (h.stopped (h.none_mem_readings_iff.mp hnone))
    exact Nat.le_antisymm hle (List.drop_eq_nil_iff.mp hended)
  · rw [h.error?_eq_some_iff, ← h.none_mem_readings_iff]
    simp only [isPushSize_iff]
    rfl
  · rw [run_of_rest_eq_nil (h.stands.rest_eq_nil (he ▸ Option.some_ne_none e)), he]

/-- A push of two bytes, an opcode, and a byte that announces more than the one byte behind it. -/
theorem run_ofBytes_cut :
    let script : Bytes := [2, 0xAA, 0xBB, 0x51, 5, 1]
    let session := (ofBytes script).run [.next, .peek, .next, .next, .peek, .next]
    let e : ParseError := ⟨.truncatedPush, 4, 5⟩
    instructions session.1 = [⟨2, 0, [0xAA, 0xBB]⟩, ⟨0x51, 3, []⟩] ∧
      session.2.error? = some e ∧ (session.2.run [.peek, .next]).2.error? = some e := by
  intro script session e
  obtain ⟨-, -, -, -, herror, hlater⟩ :=
    run_ofBytes script [.next, .peek, .next, .next, .peek, .next]
  have he : session.2.error? = some e :=
    (herror e).mpr ⟨by decide, rfl, rfl, [1], rfl, by decide, by decide⟩
  exact ⟨rfl, he, hlater e [.peek, .next] he⟩

end Tokenizer

end SpendScript
