import SpendScript.Script.Program

/-!
# Scripts as units

A unit is what a script has for one operation: a byte from 1 to 75 with that many bytes of data, or
the byte of an opcode. A script can be read exactly if it is a concatenation of units, and then the
operations are those of the units.

* `Operation.bytes`, `Operation.InScript`, `Operation.bytesOf`: the units of operations;
* `Tokenizer.announced_or_short`, `Tokenizer.next_of_announced`, `Tokenizer.next_of_short`: one
  instruction;
* `operations_bytes_append`, `operations_of_breaks`: one step; **`exists_units`**: all of a script;
* **`operations_eq_ok_iff`**, **`operations_eq_error_iff`**: what is read is what the units say;
* **`operationsOf_append`**: behind a script that can be read the next one is read on its own;
* `Program.parse_eq_ok_iff`, `Program.parse_eq_error_iff`: two scripts as one program;
* **`bytesOf_eq_append`**: where a script is cut in two, the cut lies between units or in a push.
-/

namespace SpendScript

/-! ## Bytes of opcodes -/

theorem isPushSize_iff {b : UInt8} : isPushSize b = true ↔ 1 ≤ b.toNat ∧ b.toNat ≤ 75 := by
  simp [isPushSize, UInt8.le_iff_toNat_le]

theorem Immediate.mem_all (v : Immediate) : v ∈ Immediate.all := by
  obtain ⟨v, hl, hu⟩ := v
  refine List.mem_filterMap.mpr ⟨(v + 1).toNat, List.mem_range.mpr (by omega), ?_⟩
  have hv : ((v + 1).toNat : Int) - 1 = v := by omega
  simp only [Immediate.ofInt?, hv]
  exact dif_pos ⟨hl, hu⟩

namespace Opcode

theorem mem_all (op : Opcode) : op ∈ all := by
  cases op with
  | immediate v => exact List.mem_append_left _ (List.mem_map_of_mem (Immediate.mem_all v))
  | shuffle move => cases move <;> simp [all]
  | unary f => cases f <;> simp [all]
  | binary f => cases f <;> simp [all]
  | digest f => cases f <;> simp [all]
  | _ => simp [all]

theorem ofByte?_byte (op : Opcode) : ofByte? op.byte = some op := by
  have h : ∀ op ∈ all, ofByte? op.byte = some op := by decide +kernel
  exact h op op.mem_all

/-- **An opcode is determined by its byte.** -/
theorem ofByte?_eq_some_iff {b : UInt8} {op : Opcode} : ofByte? b = some op ↔ op.byte = b := by
  constructor
  · intro h
    simpa using List.find?_some h
  · rintro rfl
    exact ofByte?_byte op

theorem isPushSize_byte (op : Opcode) : isPushSize op.byte = false := by
  have h : ∀ op ∈ all, isPushSize op.byte = false := by decide +kernel
  exact h op op.mem_all

end Opcode

/-! ## Units -/

namespace Operation

def bytes : Operation → Bytes
  | .push data => UInt8.ofNat data.length :: data
  | .code op => [op.byte]
  | .fail => []

/-- The operations that scripts can hold. -/
def InScript : Operation → Prop
  | .push data => 1 ≤ data.length ∧ data.length ≤ 75
  | .code _ => True
  | .fail => False

/-- The bytes of operations, one after the other. -/
def bytesOf (operations : List Operation) : Bytes := operations.flatMap bytes

@[simp] theorem bytesOf_nil : bytesOf [] = [] := rfl

@[simp] theorem bytesOf_cons (op : Operation) (ops : List Operation) :
    bytesOf (op :: ops) = op.bytes ++ bytesOf ops := rfl

@[simp] theorem bytesOf_append (a b : List Operation) :
    bytesOf (a ++ b) = bytesOf a ++ bytesOf b := List.flatMap_append

theorem toNat_length {data : Bytes} (h : InScript (.push data)) :
    (UInt8.ofNat data.length).toNat = data.length := by
  have := h.2
  rw [UInt8.toNat_ofNat']
  omega

theorem isPushSize_length {data : Bytes} (h : InScript (.push data)) :
    isPushSize (UInt8.ofNat data.length) = true := by
  rw [isPushSize_iff, toNat_length h]
  exact h

end Operation

/-! ## Reading one unit -/

namespace Tokenizer

open Operation

variable {offset : Nat} {b : UInt8} {rest : Bytes}

theorem operationsBehind_of_none {t last : Tokenizer} (h : t.next = (none, last))
    (done : List Operation) :
    t.operationsBehind done = last.error?.elim (.ok done.reverse) .error := by
  rw [operationsBehind]
  split
  · next last' hlast =>
    rw [h] at hlast
    cases hlast
    cases last.error? <;> rfl
  · next hsome =>
    rw [h] at hsome
    cases hsome

theorem operationsBehind_of_some {t t' : Tokenizer} {i : Instruction} (h : t.next = (some i, t'))
    (done : List Operation) : t.operationsBehind done =
      (ofInstruction? i).elim (.error ⟨.unsupportedOpcode, i.offset, i.opcode⟩)
        fun op => t'.operationsBehind (op :: done) := by
  rw [operationsBehind]
  split
  · next hnone =>
    rw [h] at hnone
    cases hnone
  · next i' t'' hsome =>
    rw [h] at hsome
    cases hsome
    cases ofInstruction? i <;> rfl

/-- What was read before stands in front of what is read. -/
theorem operationsBehind_eq (done : List Operation) (t : Tokenizer) :
    t.operationsBehind done = t.operations.map (done.reverse ++ ·) := by
  induction hn : t.rest.length using Nat.strongRecOn generalizing t done with
  | ind n ih =>
    rw [operations]
    rcases h : t.next with ⟨_ | i, t'⟩
    · rw [operationsBehind_of_none h, operationsBehind_of_none h]
      cases t'.error? <;> simp [Except.map]
    · have hlt := length_rest_of_next t h
      rw [operationsBehind_of_some h, operationsBehind_of_some h]
      cases ofInstruction? i with
      | none => rfl
      | some op =>
        change t'.operationsBehind (op :: done) = (t'.operationsBehind [op]).map _
        rw [ih _ (hn ▸ hlt) _ t' rfl, ih _ (hn ▸ hlt) [op] t' rfl]
        cases t'.operations <;> simp [Except.map]

theorem operations_of_none {t last : Tokenizer} (h : t.next = (none, last)) :
    t.operations = last.error?.elim (.ok []) .error := operationsBehind_of_none h []

theorem operations_of_some {t t' : Tokenizer} {i : Instruction} (h : t.next = (some i, t')) :
    t.operations = (ofInstruction? i).elim (.error ⟨.unsupportedOpcode, i.offset, i.opcode⟩)
      fun op => t'.operations.map (op :: ·) := by
  rw [operations, operationsBehind_of_some h]
  cases ofInstruction? i with
  | none => rfl
  | some op => exact operationsBehind_eq [op] t'

theorem announced_of_push (h : isPushSize b = true) : announced b = b.toNat := if_pos h

theorem announced_of_bare (h : isPushSize b = false) : announced b = 0 := by
  rw [announced, h]
  rfl

/-- A byte is followed by the data that it announces, or by less. -/
theorem announced_or_short (b : UInt8) (rest : Bytes) :
    (∃ data rest', rest = data ++ rest' ∧ data.length = announced b) ∨
      isPushSize b = true ∧ rest.length < b.toNat := by
  cases hp : isPushSize b with
  | false => exact Or.inl ⟨[], rest, rfl, (announced_of_bare hp).symm⟩
  | true =>
    by_cases hr : rest.length < b.toNat
    · exact Or.inr ⟨rfl, hr⟩
    · refine Or.inl ⟨rest.take b.toNat, rest.drop b.toNat, (List.take_append_drop _ _).symm, ?_⟩
      rw [announced_of_push hp, List.length_take]
      omega

/-- A byte with the data that it announces is an instruction. -/
theorem next_of_announced {data : Bytes} {error? : Option ParseError}
    (h : data.length = announced b) :
    next ⟨offset, b :: data ++ rest, error?⟩ =
      (some ⟨b, offset, data⟩, ⟨offset + (b :: data).length, rest, error?⟩) := by
  simp [next, ← h, Nat.add_assoc, Nat.add_comm 1]

/-- Where less data follows than announced, the reading ends. -/
theorem next_of_short {error? : Option ParseError} (hp : isPushSize b = true)
    (hr : rest.length < b.toNat) :
    next ⟨offset, b :: rest, error?⟩ =
      (none, ⟨offset + (b :: rest).length, [], some ⟨.truncatedPush, offset, b⟩⟩) := by
  simp [next, announced, hp]
  omega

theorem operations_nil : operations ⟨offset, [], none⟩ = .ok [] :=
  operations_of_none (rfl : next ⟨offset, [], none⟩ = (none, ⟨offset, [], none⟩))

/-- **Reading a unit** gives its operation and goes on behind it. -/
theorem operations_bytes_append {op : Operation} (h : op.InScript) (offset : Nat) (rest : Bytes) :
    operations ⟨offset, op.bytes ++ rest, none⟩ =
      (operations ⟨offset + op.bytes.length, rest, none⟩).map (op :: ·) := by
  cases op with
  | push data =>
    have hp := isPushSize_length h
    have ha : data.length = announced (UInt8.ofNat data.length) := by
      rw [announced_of_push hp, toNat_length h]
    rw [bytes, operations_of_some (next_of_announced ha), ofInstruction?, if_pos hp]
    rfl
  | code op =>
    have hp := op.isPushSize_byte
    have ha : ([] : Bytes).length = announced op.byte := (announced_of_bare hp).symm
    rw [bytes, operations_of_some (next_of_announced ha), ofInstruction?, hp, op.ofByte?_byte]
    rfl
  | fail => exact h.elim

theorem operations_unsupported (hp : isPushSize b = false) (hb : Opcode.ofByte? b = none) :
    operations ⟨offset, b :: rest, none⟩ = .error ⟨.unsupportedOpcode, offset, b⟩ := by
  have ha : ([] : Bytes).length = announced b := (announced_of_bare hp).symm
  have hn : next ⟨offset, b :: rest, none⟩ = (some ⟨b, offset, []⟩, ⟨offset + 1, rest, none⟩) :=
    next_of_announced ha
  rw [operations_of_some hn, ofInstruction?, hp, hb]
  rfl

theorem operations_truncated (hp : isPushSize b = true) (hr : rest.length < b.toNat) :
    operations ⟨offset, b :: rest, none⟩ = .error ⟨.truncatedPush, offset, b⟩ := by
  rw [operations_of_none (next_of_short hp hr)]
  rfl

/-- A byte ends the reading if it announces more data than follows it, or stands for nothing. -/
inductive Breaks : UInt8 → Bytes → ScriptError → Prop
  | truncated {b : UInt8} {rest : Bytes} (push : isPushSize b = true)
      (short : rest.length < b.toNat) : Breaks b rest .truncatedPush
  | unsupported {b : UInt8} {rest : Bytes} (bare : isPushSize b = false)
      (unknown : Opcode.ofByte? b = none) : Breaks b rest .unsupportedOpcode

theorem operations_of_breaks {error : ScriptError} (h : Breaks b rest error) :
    operations ⟨offset, b :: rest, none⟩ = .error ⟨error, offset, b⟩ := by
  cases h with
  | truncated push short => exact operations_truncated push short
  | unsupported bare unknown => exact operations_unsupported bare unknown

/-- A script that is not at its end begins with a unit or with a byte that ends the reading. -/
theorem unit_or_breaks (b : UInt8) (rest : Bytes) :
    (∃ (op : Operation) (rest' : Bytes), op.InScript ∧ b :: rest = op.bytes ++ rest') ∨
      ∃ error, Breaks b rest error := by
  obtain ⟨data, rest', rfl, hlength⟩ | ⟨hp, hr⟩ := announced_or_short b rest
  · cases hp : isPushSize b with
    | true =>
      rw [announced_of_push hp] at hlength
      refine Or.inl ⟨.push data, rest', ?_, ?_⟩
      · rw [InScript, hlength]
        exact isPushSize_iff.mp hp
      · rw [bytes, hlength, UInt8.ofNat_toNat, List.cons_append]
    | false =>
      rw [announced_of_bare hp] at hlength
      obtain rfl := List.length_eq_zero_iff.mp hlength
      cases hb : Opcode.ofByte? b with
      | none => exact Or.inr ⟨_, .unsupported hp hb⟩
      | some op =>
        refine Or.inl ⟨.code op, rest', trivial, ?_⟩
        rw [bytes, Opcode.ofByte?_eq_some_iff.mp hb]
        rfl
  · exact Or.inr ⟨_, .truncated hp hr⟩

/-- What is left of a script behind its units is nothing, or begins with a byte that ends the
reading. -/
inductive Ends : Bytes → Prop
  | nil : Ends []
  | breaks {b : UInt8} {rest : Bytes} {error : ScriptError} (h : Breaks b rest error) :
      Ends (b :: rest)

/-- **Every script is units and an end.** -/
theorem exists_units (script : Bytes) :
    ∃ ops rest, (∀ op ∈ ops, InScript op) ∧ Ends rest ∧ script = bytesOf ops ++ rest := by
  induction hn : script.length using Nat.strongRecOn generalizing script with
  | ind n ih =>
    cases script with
    | nil => exact ⟨[], [], by simp, .nil, rfl⟩
    | cons b rest =>
      obtain ⟨op, rest', hop, hb⟩ | ⟨error, herror⟩ := unit_or_breaks b rest
      · have hpos : 0 < op.bytes.length := by cases op <;> simp_all [bytes, InScript]
        have hlen := congrArg List.length hb
        rw [List.length_append] at hlen
        obtain ⟨ops, last, hin, hends, rfl⟩ := ih rest'.length (by omega) rest' rfl
        refine ⟨op :: ops, last, List.forall_mem_cons.mpr ⟨hop, hin⟩, hends, ?_⟩
        rw [hb, bytesOf_cons, List.append_assoc]
      · exact ⟨[], b :: rest, by simp, .breaks herror, rfl⟩

/-! ## Reading a script -/

/-- Reading units gives their operations and goes on behind them. -/
theorem operations_bytesOf_append {ops : List Operation} (hin : ∀ op ∈ ops, op.InScript)
    (offset : Nat) (rest : Bytes) :
    operations ⟨offset, bytesOf ops ++ rest, none⟩ =
      (operations ⟨offset + (bytesOf ops).length, rest, none⟩).map (ops ++ ·) := by
  induction ops generalizing offset with
  | nil =>
    change _ = Except.map _ (operations ⟨offset, rest, none⟩)
    cases h : operations ⟨offset, rest, none⟩ <;> rw [bytesOf_nil, List.nil_append, h] <;> rfl
  | cons op ops ih =>
    obtain ⟨hop, hin⟩ := List.forall_mem_cons.mp hin
    rw [bytesOf_cons, List.append_assoc, operations_bytes_append hop, ih hin, List.length_append,
      Nat.add_assoc]
    cases operations ⟨offset + (op.bytes.length + (bytesOf ops).length), rest, none⟩ <;> rfl

/-- **What is read is what the units say**: reading gives `ops` exactly if their units make up what
is left. -/
theorem operations_eq_ok_iff (offset : Nat) (script : Bytes) (ops : List Operation) :
    operations ⟨offset, script, none⟩ = .ok ops ↔
      (∀ op ∈ ops, op.InScript) ∧ bytesOf ops = script := by
  constructor
  · intro h
    obtain ⟨found, rest, hin, hends, rfl⟩ := exists_units script
    rw [operations_bytesOf_append hin] at h
    cases hends with
    | nil =>
      rw [operations_nil] at h
      obtain rfl : found ++ [] = ops := Except.ok.inj h
      rw [List.append_nil, List.append_nil]
      exact ⟨hin, rfl⟩
    | breaks hb =>
      rw [operations_of_breaks hb] at h
      cases h
  · rintro ⟨hin, rfl⟩
    have h := operations_bytesOf_append hin offset []
    rw [List.append_nil, operations_nil] at h
    rw [h]
    exact congrArg Except.ok (List.append_nil ops)

/-- **The error is the first one**: all before it is units. -/
theorem operations_eq_error_iff (offset : Nat) (script : Bytes) (e : ParseError) :
    operations ⟨offset, script, none⟩ = .error e ↔
      ∃ ops rest, (∀ op ∈ ops, InScript op) ∧ script = bytesOf ops ++ e.opcode :: rest ∧
        e.offset = offset + (bytesOf ops).length ∧ Breaks e.opcode rest e.error := by
  constructor
  · intro h
    obtain ⟨ops, rest, hin, hends, rfl⟩ := exists_units script
    rw [operations_bytesOf_append hin] at h
    cases hends with
    | nil =>
      rw [operations_nil] at h
      cases h
    | breaks hb =>
      rw [operations_of_breaks hb] at h
      obtain rfl := Except.error.inj h
      exact ⟨ops, _, hin, rfl, rfl, hb⟩
  · rintro ⟨ops, rest, hin, rfl, hoffset, hb⟩
    rw [operations_bytesOf_append hin, operations_of_breaks hb, ← hoffset]
    rfl

/-- A place further on shows in the place of the error alone. -/
theorem operations_eq_mapError (offset : Nat) (script : Bytes) :
    operations ⟨offset, script, none⟩ =
      (operations ⟨0, script, none⟩).mapError fun e => { e with offset := e.offset + offset } := by
  cases h : operations ⟨0, script, none⟩ with
  | ok ops => exact (operations_eq_ok_iff _ _ _).mpr ((operations_eq_ok_iff _ _ _).mp h)
  | error e =>
    obtain ⟨ops, rest, hin, hscript, hoffset, hb⟩ := (operations_eq_error_iff _ _ _).mp h
    refine (operations_eq_error_iff _ _ _).mpr ⟨ops, rest, hin, hscript, ?_, hb⟩
    change e.offset + offset = _
    omega

end Tokenizer

namespace Program

open Operation

theorem operationsOf_eq_ok_iff (script : Bytes) (ops : List Operation) :
    operationsOf script = .ok ops ↔ (∀ op ∈ ops, op.InScript) ∧ bytesOf ops = script :=
  Tokenizer.operations_eq_ok_iff 0 script ops

/-- **Behind a script that can be read** the next one is read on its own, in a place further on. -/
theorem operationsOf_append {u l : Bytes} {a : List Operation} (hu : operationsOf u = .ok a) :
    operationsOf (u ++ l) =
      match operationsOf l with
      | .ok b => .ok (a ++ b)
      | .error e => .error { e with offset := e.offset + u.length } := by
  obtain ⟨ha, rfl⟩ := (operationsOf_eq_ok_iff _ _).mp hu
  change Tokenizer.operations ⟨0, bytesOf a ++ l, none⟩ = _
  rw [Tokenizer.operations_bytesOf_append ha, Nat.zero_add, Tokenizer.operations_eq_mapError]
  change ((operationsOf l).mapError _).map _ = _
  cases operationsOf l <;> rfl

theorem operationsOf_append_eq_ok_iff {u l : Bytes} {a ops : List Operation}
    (hu : operationsOf u = .ok a) :
    operationsOf (u ++ l) = .ok ops ↔ ∃ b, operationsOf l = .ok b ∧ ops = a ++ b := by
  rw [operationsOf_append hu]
  cases operationsOf l with
  | ok b =>
    constructor
    · intro h
      exact ⟨b, rfl, (Except.ok.inj h).symm⟩
    · rintro ⟨b', hb, rfl⟩
      rw [Except.ok.inj hb]
  | error e => exact ⟨fun h => (by cases h), fun ⟨_, hb, _⟩ => (by cases hb)⟩

/-! ## Parsing two scripts -/

variable {p : Primitives} {unlocking locking : Bytes}

theorem parse_eq_map :
    parse p unlocking locking =
      (operationsOf (unlocking ++ locking)).map fun ops => ⟨ops, addressOf p ops⟩ := by
  unfold parse
  cases operationsOf (unlocking ++ locking) <;> rfl

theorem parse_of_operationsOf {ops : List Operation}
    (h : operationsOf (unlocking ++ locking) = .ok ops) :
    parse p unlocking locking = .ok ⟨ops, addressOf p ops⟩ := by
  rw [parse_eq_map, h]
  rfl

theorem parse_eq_ok_iff {program : Program} :
    parse p unlocking locking = .ok program ↔
      operationsOf (unlocking ++ locking) = .ok program.operations ∧
        program.address = addressOf p program.operations := by
  rw [parse_eq_map]
  cases operationsOf (unlocking ++ locking) with
  | error e => exact ⟨fun h => (by cases h), fun h => (by cases h.1)⟩
  | ok ops =>
    constructor
    · intro h
      cases h
      exact ⟨rfl, rfl⟩
    · obtain ⟨ops', address⟩ := program
      rintro ⟨hops, haddress⟩
      cases hops
      exact congrArg (fun text => Except.ok (Program.mk ops' text)) haddress.symm

theorem parse_eq_error_iff {e : ParseError} :
    parse p unlocking locking = .error e ↔ operationsOf (unlocking ++ locking) = .error e := by
  rw [parse_eq_map]
  cases operationsOf (unlocking ++ locking) with
  | error e' => exact ⟨fun h => (by cases h; rfl), fun h => (by cases h; rfl)⟩
  | ok ops => exact ⟨fun h => (by cases h), fun h => (by cases h)⟩

end Program

/-! ## Cutting a script -/

namespace Operation

/-- **A cut lies between units or in a push.** In the second case the part of the data before the
cut may be empty, the part behind it is not. -/
theorem bytesOf_eq_append {ops : List Operation} (hin : ∀ op ∈ ops, op.InScript) {u l : Bytes}
    (h : bytesOf ops = u ++ l) :
    (∃ a b, ops = a ++ b ∧ bytesOf a = u ∧ bytesOf b = l) ∨
      ∃ a held taken b, ops = a ++ .push (held ++ taken) :: b ∧ taken ≠ [] ∧
        u = bytesOf a ++ UInt8.ofNat (held ++ taken).length :: held ∧ l = taken ++ bytesOf b := by
  induction ops generalizing u with
  | nil =>
    obtain ⟨rfl, rfl⟩ := List.append_eq_nil_iff.mp h.symm
    exact Or.inl ⟨[], [], rfl, rfl, rfl⟩
  | cons op ops ih =>
    obtain ⟨hop, hin'⟩ := List.forall_mem_cons.mp hin
    rw [bytesOf_cons] at h
    obtain ⟨u', rfl, hu⟩ | ⟨l', hop', rfl⟩ := List.append_eq_append_iff.mp h
    · -- the first unit lies before the cut
      obtain ⟨a, b, rfl, ha, hb⟩ | ⟨a, held, taken, b, rfl, ht, ha, hb⟩ := ih hin' hu
      · exact Or.inl ⟨op :: a, b, rfl, by rw [bytesOf_cons, ha], hb⟩
      · refine Or.inr ⟨op :: a, held, taken, b, rfl, ht, ?_, hb⟩
        rw [ha, bytesOf_cons, List.append_assoc]
    · -- the cut lies in the first unit
      cases u with
      | nil => exact Or.inl ⟨[], op :: ops, rfl, rfl, by rw [bytesOf_cons, hop', List.nil_append]⟩
      | cons n held =>
        cases op with
        | push data =>
          obtain ⟨rfl, rfl⟩ := List.cons.inj hop'
          cases l' with
          | nil => exact Or.inl ⟨[.push (held ++ [])], ops, rfl, by simp [bytes], rfl⟩
          | cons x taken =>
            exact Or.inr ⟨[], held, x :: taken, ops, rfl, List.cons_ne_nil _ _, rfl, rfl⟩
        | code op =>
          obtain ⟨rfl, hnil⟩ := List.cons.inj hop'
          obtain ⟨rfl, rfl⟩ := List.append_eq_nil_iff.mp hnil.symm
          exact Or.inl ⟨[.code op], ops, rfl, rfl, rfl⟩
        | fail => exact hop.elim

end Operation

end SpendScript
