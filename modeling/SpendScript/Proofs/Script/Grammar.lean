import Mathlib.Data.List.Forall2
import SpendScript.Proofs.Script.Address
import SpendScript.Script.Catalog

/-!
# The grammar of scripts

A script is a concatenation of units: a byte from 1 to 75 with that many bytes behind it, or one
byte that the catalog of opcodes knows. Parsing accepts these scripts and no others, reads each in
the one way there is, and otherwise names the first byte that begins no unit. A script that can be
read on its own does not change how the one behind it is read.

* `IsUnit`, `IsScript`: the grammar; `Catalog.lookup_standard`: the catalog in terms of opcodes;
* `ParseError.Marks`: where a script stops being one;
* **`Program.parse_grammar`**: parsing is the grammar;
* **`Program.parse_append`**: parsing at a clean boundary.
-/

namespace SpendScript

/-! ## The catalog -/

theorem Catalog.lookup_standard (b : UInt8) :
    standard.lookup b = (Opcode.ofByte? b).map Opcode.name := by
  unfold lookup standard Opcode.ofByte?
  generalize Opcode.all = ops
  induction ops with
  | nil => rfl
  | cons op ops ih =>
    rw [List.map_cons, List.lookup_cons, List.find?_cons, BEq.comm]
    cases h : op.byte == b
    · exact ih
    · rfl

theorem Catalog.lookup_standard_byte (op : Opcode) : standard.lookup op.byte = some op.name := by
  rw [lookup_standard, Opcode.ofByte?_byte]
  rfl

theorem Catalog.contains_standard_eq_false_iff {b : UInt8} :
    standard.contains b = false ↔ Opcode.ofByte? b = none := by
  rw [contains, lookup_standard, Option.isSome_map, Option.isSome_eq_false_iff,
    Option.isNone_iff_eq_none]

/-! ## Units -/

/-- The units of scripts, each with the operation that it stands for. -/
inductive IsUnit : Bytes → Operation → Prop
  | push (size : UInt8) (data : Bytes) (pos : 1 ≤ size.toNat) (le : size.toNat ≤ 75)
      (length : data.length = size.toNat) : IsUnit (size :: data) (.push data)
  | code (b : UInt8) (op : Opcode) (known : Catalog.standard.lookup b = some op.name)
      (byte : op.byte = b) : IsUnit [b] (.code op)

/-- A concatenation of units. -/
def IsScript (script : Bytes) : Prop :=
  ∃ units ops, List.Forall₂ IsUnit units ops ∧ units.flatten = script

theorem isUnit_iff {unit : Bytes} {op : Operation} :
    IsUnit unit op ↔ op.InScript ∧ op.bytes = unit := by
  constructor
  · intro h
    cases h with
    | push size data pos le length =>
      refine ⟨⟨length ▸ pos, length ▸ le⟩, ?_⟩
      rw [Operation.bytes, length, UInt8.ofNat_toNat]
    | code b op known byte => exact ⟨trivial, by rw [Operation.bytes, byte]⟩
  · rintro ⟨hin, rfl⟩
    cases op with
    | push data =>
      have hsize := Operation.toNat_length hin
      refine .push _ data ?_ ?_ hsize.symm
      · rw [hsize]
        exact hin.1
      · rw [hsize]
        exact hin.2
    | code op => exact .code _ op (Catalog.lookup_standard_byte op) rfl
    | fail => exact hin.elim

theorem forall₂_isUnit_iff {units : List Bytes} {ops : List Operation} :
    List.Forall₂ IsUnit units ops ↔
      (∀ op ∈ ops, op.InScript) ∧ ops.map Operation.bytes = units := by
  constructor
  · intro h
    induction h with
    | nil => exact ⟨by simp, rfl⟩
    | cons hunit _ ih =>
      obtain ⟨hin, rfl⟩ := isUnit_iff.mp hunit
      exact ⟨List.forall_mem_cons.mpr ⟨hin, ih.1⟩, by rw [List.map_cons, ih.2]⟩
  · rintro ⟨hin, rfl⟩
    induction ops with
    | nil => exact .nil
    | cons op ops ih =>
      obtain ⟨hop, hin⟩ := List.forall_mem_cons.mp hin
      exact .cons (isUnit_iff.mpr ⟨hop, rfl⟩) (ih hin)

/-- Units with given operations are those that the operations are written as. -/
theorem exists_units_iff {ops : List Operation} {script : Bytes} :
    (∃ units, List.Forall₂ IsUnit units ops ∧ units.flatten = script) ↔
      (∀ op ∈ ops, op.InScript) ∧ Operation.bytesOf ops = script := by
  constructor
  · rintro ⟨units, hunits, rfl⟩
    obtain ⟨hin, rfl⟩ := forall₂_isUnit_iff.mp hunits
    exact ⟨hin, rfl⟩
  · rintro ⟨hin, rfl⟩
    exact ⟨_, forall₂_isUnit_iff.mpr ⟨hin, rfl⟩, rfl⟩

theorem isScript_iff {script : Bytes} :
    IsScript script ↔
      ∃ ops, (∀ op ∈ ops, Operation.InScript op) ∧ Operation.bytesOf ops = script := by
  rw [IsScript, exists_comm]
  exact exists_congr fun ops => exists_units_iff

/-! ## Errors -/

/-- Where and why a script stops being a concatenation of units: `e` names the first byte that
begins none. -/
structure ParseError.Marks (e : ParseError) (script : Bytes) : Prop where
  lt_length : e.offset < script.length
  opcode_eq : script[e.offset] = e.opcode
  before : IsScript (script.take e.offset)
  kind : e.error = .truncatedPush ∨ e.error = .unsupportedOpcode
  truncated : e.error = .truncatedPush ↔
    (1 ≤ e.opcode.toNat ∧ e.opcode.toNat ≤ 75) ∧
      (script.drop (e.offset + 1)).length < e.opcode.toNat
  unsupported : e.error = .unsupportedOpcode ↔
    ¬ (1 ≤ e.opcode.toNat ∧ e.opcode.toNat ≤ 75) ∧ Catalog.standard.contains e.opcode = false

theorem Tokenizer.breaks_iff {b : UInt8} {rest : Bytes} {error : ScriptError} :
    Breaks b rest error ↔
      (error = .truncatedPush ∨ error = .unsupportedOpcode) ∧
      (error = .truncatedPush ↔ (1 ≤ b.toNat ∧ b.toNat ≤ 75) ∧ rest.length < b.toNat) ∧
      (error = .unsupportedOpcode ↔
        ¬ (1 ≤ b.toNat ∧ b.toNat ≤ 75) ∧ Catalog.standard.contains b = false) := by
  rw [← isPushSize_iff, Catalog.contains_standard_eq_false_iff, Bool.not_eq_true]
  constructor
  · intro h
    cases h with
    | truncated push short => simp [push, short]
    | unsupported bare unknown => simp [bare, unknown]
  · rintro ⟨rfl | rfl, htruncated, hunsupported⟩
    · obtain ⟨push, short⟩ := htruncated.mp rfl
      exact .truncated push short
    · obtain ⟨bare, unknown⟩ := hunsupported.mp rfl
      exact .unsupported bare unknown

theorem Program.operationsOf_eq_error_iff {script : Bytes} {e : ParseError} :
    operationsOf script = .error e ↔ e.Marks script := by
  rw [operationsOf, Tokenizer.ofBytes, Tokenizer.operations_eq_error_iff]
  constructor
  · rintro ⟨ops, rest, hin, rfl, hoffset, hbreaks⟩
    rw [Nat.zero_add] at hoffset
    obtain ⟨hkind, htruncated, hunsupported⟩ := Tokenizer.breaks_iff.mp hbreaks
    refine ⟨?_, ?_, ?_, hkind, ?_, hunsupported⟩
    · rw [List.length_append, List.length_cons]
      omega
    · simp [hoffset]
    · rw [hoffset, List.take_left' rfl]
      exact isScript_iff.mpr ⟨ops, hin, rfl⟩
    · rw [hoffset]
      simpa using htruncated
  · intro h
    obtain ⟨ops, hin, hbefore⟩ := isScript_iff.mp h.before
    refine ⟨ops, script.drop (e.offset + 1), hin, ?_, ?_,
      Tokenizer.breaks_iff.mpr ⟨h.kind, h.truncated, h.unsupported⟩⟩
    · rw [hbefore, ← h.opcode_eq, List.getElem_cons_drop, List.take_append_drop]
    · rw [hbefore, List.length_take, Nat.min_eq_left (Nat.le_of_lt h.lt_length), Nat.zero_add]

namespace Program

variable (p : Primitives) (u l : Bytes)

/-- **Parsing is the grammar.** Two scripts are a program exactly if together they are a
concatenation of units; the operations are those of the units, so that they are written as these
bytes again. Otherwise the error is the first one from the left. -/
theorem parse_grammar :
    ((∃ program, parse p u l = .ok program) ↔ IsScript (u ++ l)) ∧
    (∀ program, parse p u l = .ok program ↔
      (∃ units, List.Forall₂ IsUnit units program.operations ∧ units.flatten = u ++ l) ∧
        Operation.bytesOf program.operations = u ++ l ∧
        program.address = addressOf p program.operations) ∧
    ∀ e, parse p u l = .error e ↔ e.Marks (u ++ l) := by
  have hok (program : Program) : parse p u l = .ok program ↔
      ((∀ op ∈ program.operations, op.InScript) ∧
        Operation.bytesOf program.operations = u ++ l) ∧
        program.address = addressOf p program.operations := by
    rw [parse_eq_ok_iff, operationsOf_eq_ok_iff]
  refine ⟨?_, ?_, fun e => parse_eq_error_iff.trans operationsOf_eq_error_iff⟩
  · rw [isScript_iff]
    constructor
    · rintro ⟨program, h⟩
      exact ⟨program.operations, ((hok program).mp h).1⟩
    · rintro ⟨ops, h⟩
      exact ⟨⟨ops, addressOf p ops⟩, (hok _).mpr ⟨h, rfl⟩⟩
  · intro program
    rw [hok, exists_units_iff]
    constructor
    · rintro ⟨h, haddress⟩
      exact ⟨h, h.2, haddress⟩
    · rintro ⟨h, -, haddress⟩
      exact ⟨h, haddress⟩

variable {p u l}

/-- **Parsing at a clean boundary.** Behind an unlocking script that can be read on its own, the
locking script is read as if it stood alone: its operations follow, its address counts if there was
none before, and its error is found further on. -/
theorem parse_append {a : Program} (hu : parse p u [] = .ok a) :
    ((∃ program, parse p u l = .ok program) ↔ ∃ b, parse p [] l = .ok b) ∧
    parse p u l =
      match parse p [] l with
      | .ok b =>
        .ok ⟨a.operations ++ b.operations, if a.address ≠ "" then a.address else b.address⟩
      | .error e => .error ⟨e.error, e.offset + u.length, e.opcode⟩ := by
  obtain ⟨hops, haddress⟩ := parse_eq_ok_iff.mp hu
  rw [List.append_nil] at hops
  rw [parse_eq_map, parse_eq_map, List.nil_append, operationsOf_append hops]
  cases operationsOf l with
  | ok b =>
    refine ⟨⟨fun _ => ⟨_, rfl⟩, fun _ => ⟨_, rfl⟩⟩, ?_⟩
    change Except.ok (Program.mk _ (addressOf p (a.operations ++ b))) = _
    rw [addressOf_append, ← haddress]
    rfl
  | error e => exact ⟨⟨fun ⟨_, h⟩ => (by cases h), fun ⟨_, h⟩ => (by cases h)⟩, rfl⟩

/-- The error of the second script is found behind the 21 bytes of the first one. -/
theorem parse_append_unsupported :
    let u : Bytes := 20 :: List.replicate 20 0
    parse Primitives.standard u [0x51, 0xff] = .error ⟨.unsupportedOpcode, 22, 0xff⟩ := by
  intro u
  have hu : operationsOf u = .ok [.push (List.replicate 20 0)] :=
    (operationsOf_eq_ok_iff _ _).mpr ⟨by simp [Operation.InScript], by decide⟩
  have hl : parse Primitives.standard [] [0x51, 0xff] = .error ⟨.unsupportedOpcode, 1, 0xff⟩ :=
    parse_eq_error_iff.mpr ((Tokenizer.operations_eq_error_iff 0 _ _).mpr
      ⟨[.code (.immediate ⟨1, by decide⟩)], [], by simp [Operation.InScript], by decide, by decide,
        .unsupported (by decide) (by decide)⟩)
  have hparse : parse Primitives.standard u [] = .ok ⟨_, addressOf Primitives.standard _⟩ :=
    parse_eq_ok_iff.mpr ⟨by rw [List.append_nil, hu], rfl⟩
  rw [(parse_append hparse).2, hl]
  rfl

end Program

end SpendScript
