import Mathlib.Data.List.Nodup
import SpendScript.CommandLine.Report
import SpendScript.Proofs.Hex
import SpendScript.Proofs.Script.Units

/-!
# Listings

A listing has one line for each operation between two marks. No line breaks inside and none looks
like the closing mark, so the lines can be told apart even where more text follows, and a line tells
its operation. As a script is written back from its operations, the listing tells the script.

* `endLines`, **`endLines_inj`**: lines up to a closing one;
* `Opcode.name_inj`, **`Operation.label_inj`**: a line and its operation;
* **`Program.operations_eq_of_listing`**: a listing and its operations;
* `Program.operations_eq_iff`: operations and the script that they are read from;
* `Request.exists_stdout`: the listing in a report;
* **`Program.listing_of_parse`**: a listing and its script.
-/

namespace SpendScript

/-! ## Lines -/

section Lines

variable {α : Type} {x : α}

/-- What stands before the first `x`, and what stands behind it. -/
theorem append_cons_inj {a b rest rest' : List α} (ha : x ∉ a) (hb : x ∉ b)
    (h : a ++ x :: rest = b ++ x :: rest') : a = b ∧ rest = rest' := by
  induction a generalizing b with
  | nil =>
    cases b with
    | nil => exact ⟨rfl, (List.cons.inj h).2⟩
    | cons c b => exact absurd ((List.cons.inj h).1 ▸ List.mem_cons_self) hb
  | cons c a ih =>
    cases b with
    | nil => exact absurd ((List.cons.inj h).1 ▸ List.mem_cons_self) ha
    | cons d b =>
      obtain ⟨rfl, htail⟩ := List.cons.inj h
      obtain ⟨rfl, hrest⟩ := ih (List.not_mem_of_not_mem_cons ha) (List.not_mem_of_not_mem_cons hb)
        htail
      exact ⟨rfl, hrest⟩

variable (x) in
/-- Lines, each with its end. -/
def endLines (lines : List (List α)) : List α := lines.flatMap (· ++ [x])

theorem endLines_cons_append (l : List α) (ls : List (List α)) (rest : List α) :
    endLines x (l :: ls) ++ rest = l ++ x :: (endLines x ls ++ rest) := by
  simp [endLines]

theorem intercalate_append (l : List α) (ls : List (List α)) :
    [x].intercalate (l :: ls) ++ [x] = endLines x (l :: ls) := by
  induction ls generalizing l with
  | nil => simp [endLines]
  | cons l' ls ih =>
    rw [List.intercalate_cons_cons, List.append_assoc, ih]
    rfl

/-- **Lines are determined up to the closing one**, whatever follows it. -/
theorem endLines_inj {closing : List α} (hclosing : x ∉ closing) {a b : List (List α)}
    {rest rest' : List α} (ha : ∀ l ∈ a, x ∉ l ∧ l ≠ closing) (hb : ∀ l ∈ b, x ∉ l ∧ l ≠ closing)
    (h : endLines x (a ++ [closing]) ++ rest = endLines x (b ++ [closing]) ++ rest') : a = b := by
  -- if one list ends before the other, the closing line stands where the other has an open one
  induction a generalizing b with
  | nil =>
    cases b with
    | nil => rfl
    | cons l b =>
      obtain ⟨⟨hl, hne⟩, -⟩ := List.forall_mem_cons.mp hb
      rw [List.nil_append, List.cons_append, endLines_cons_append, endLines_cons_append] at h
      exact absurd (append_cons_inj hclosing hl h).1.symm hne
  | cons l a ih =>
    obtain ⟨⟨hl, hne⟩, ha⟩ := List.forall_mem_cons.mp ha
    cases b with
    | nil =>
      rw [List.nil_append, List.cons_append, endLines_cons_append, endLines_cons_append] at h
      exact absurd (append_cons_inj hl hclosing h).1 hne
    | cons l' b =>
      obtain ⟨⟨hl', -⟩, hb'⟩ := List.forall_mem_cons.mp hb
      rw [List.cons_append, List.cons_append, endLines_cons_append, endLines_cons_append] at h
      obtain ⟨rfl, htail⟩ := append_cons_inj hl hl' h
      rw [ih ha hb' htail]

end Lines

/-! ## Labels -/

namespace Opcode

/-- **No name is given twice.** -/
theorem name_inj {a b : Opcode} (h : a.name = b.name) : a = b := by
  have hall : (all.map name).Nodup := by decide +kernel
  exact List.inj_on_of_nodup_map hall a.mem_all b.mem_all h

theorem head?_name (op : Opcode) : op.name.toList.head? = some 'O' := by
  have hall : ∀ op ∈ all, op.name.toList.head? = some 'O' := by decide +kernel
  exact hall op op.mem_all

theorem newline_notMem_name (op : Opcode) : '\n' ∉ op.name.toList := by
  have hall : ∀ op ∈ all, '\n' ∉ op.name.toList := by decide +kernel
  exact hall op op.mem_all

end Opcode

namespace Operation

/-- What the label of a push says before the blank. -/
def pushWord (size : Nat) : List Char := "PUSH(".toList ++ (Nat.toDigits 10 size ++ [')'])

theorem mem_pushWord {c : Char} {size : Nat} (h : c ∈ pushWord size) :
    c ∈ "PUSH()".toList ∨ c.isDigit = true := by
  rw [pushWord, List.mem_append, List.mem_append] at h
  rcases h with h | h | h
  · exact Or.inl (List.mem_append_left [')'] h)
  · exact Or.inr (Nat.isDigit_of_mem_toDigits (by decide) (by decide) h)
  · exact Or.inl (List.mem_append_right "PUSH(".toList h)

theorem toList_label_push (data : Bytes) :
    (push data).label.toList = pushWord data.length ++ ' ' :: Hex.encodeChars data := by
  change ("PUSH(" ++ Nat.repr data.length ++ ") " ++ Hex.encode data).toList = _
  simp only [String.toList_append, Nat.toList_repr, Hex.encode, String.toList_ofList, pushWord,
    List.append_assoc]
  rfl

/-- The character that a label begins with. -/
def initial : Operation → Char
  | .push _ => 'P'
  | .code _ => 'O'
  | .fail => 'F'

theorem head?_label (op : Operation) : op.label.toList.head? = some op.initial := by
  cases op with
  | push data =>
    rw [toList_label_push]
    rfl
  | code op => exact op.head?_name
  | fail => rfl

/-- **A label is one line.** -/
theorem newline_notMem_label (op : Operation) : '\n' ∉ op.label.toList := by
  cases op with
  | push data =>
    rw [toList_label_push, List.mem_append, List.mem_cons]
    rintro (hword | hblank | hhex)
    · exact (mem_pushWord hword).elim (by decide) (by decide)
    · exact absurd hblank (by decide)
    · obtain ⟨n, hn, hchar⟩ := Hex.mem_encodeChars hhex
      have hdigits : ∀ n < 16, Nat.digitChar n ≠ '\n' := by decide
      exact hdigits n hn hchar
  | code op => exact op.newline_notMem_name
  | fail => decide

/-- **A label tells its operation.** -/
theorem label_inj {a b : Operation} (h : a.label = b.label) : a = b := by
  -- labels of different kinds differ in the first character
  have hinitial : a.initial = b.initial := by
    rw [← Option.some_inj, ← head?_label, ← head?_label, h]
  cases a with
  | push data =>
    cases b with
    | push data' =>
      have hblank (size : Nat) : ' ' ∉ pushWord size := fun hword =>
        (mem_pushWord hword).elim (by decide) (by decide)
      have htext := congrArg String.toList h
      rw [toList_label_push, toList_label_push] at htext
      rw [Hex.encodeChars_inj.mp (append_cons_inj (hblank _) (hblank _) htext).2]
    | code op => cases hinitial
    | fail => cases hinitial
  | code op =>
    cases b with
    | push data => cases hinitial
    | code op' => rw [Opcode.name_inj h]
    | fail => cases hinitial
  | fail =>
    cases b with
    | push data => cases hinitial
    | code op => cases hinitial
    | fail => rfl

end Operation

/-! ## Programs -/

namespace Program

open Operation

/-- The lines of a listing up to the closing one. -/
def openLines (program : Program) : List (List Char) :=
  "-- BEGIN ----".toList :: program.operations.map fun op => op.label.toList

theorem toList_listing_append (program : Program) (rest : String) :
    (program.listing ++ "\n" ++ rest).toList =
      endLines '\n' (program.openLines ++ ["-- END ----".toList]) ++ rest.toList := by
  have hlines : program.openLines ++ ["-- END ----".toList] =
      ("-- BEGIN ----" :: program.operations.map label ++ ["-- END ----"]).map String.toList := by
    simp [openLines]
  rw [hlines, List.cons_append, List.map_cons, ← intercalate_append, ← List.map_cons,
    String.toList_append, String.toList_append, listing, String.toList_intercalate]
  rfl

theorem openLines_spec (program : Program) :
    ∀ l ∈ program.openLines, '\n' ∉ l ∧ l ≠ "-- END ----".toList := by
  refine List.forall_mem_cons.mpr ⟨by decide, fun l hl => ?_⟩
  obtain ⟨op, -, rfl⟩ := List.mem_map.mp hl
  refine ⟨op.newline_notMem_label, fun hclosing => ?_⟩
  -- the closing mark begins with a dash, as no label does
  have hinitial := op.head?_label
  rw [hclosing] at hinitial
  cases op <;> cases hinitial

/-- **A listing tells its operations**, also where more text follows it. -/
theorem operations_eq_of_listing {a b : Program} {rest rest' : String}
    (h : a.listing ++ "\n" ++ rest = b.listing ++ "\n" ++ rest') : a.operations = b.operations := by
  have hlines := congrArg String.toList h
  rw [toList_listing_append, toList_listing_append] at hlines
  have hopen := endLines_inj (by decide) a.openLines_spec b.openLines_spec hlines
  exact (List.map_inj_right fun _ _ hop => label_inj (String.toList_inj.mp hop)).mp
    (List.cons.inj hopen).2

variable {p : Primitives} {u l u' l' : Bytes} {a b : Program}

/-- **Operations tell the script** that they are read from, and are told by it. -/
theorem operations_eq_iff (h : parse p u l = .ok a) (h' : parse p u' l' = .ok b) :
    a.operations = b.operations ↔ u ++ l = u' ++ l' := by
  have ha := (parse_eq_ok_iff.mp h).1
  have hb := (parse_eq_ok_iff.mp h').1
  constructor
  · intro hops
    rw [← ((operationsOf_eq_ok_iff _ _).mp ha).2, hops, ((operationsOf_eq_ok_iff _ _).mp hb).2]
  · intro hscript
    rw [hscript, hb] at ha
    exact (Except.ok.inj ha).symm

end Program

/-! ## Reports -/

namespace CommandLine.Request

/-- A report on scripts that can be read begins with their listing. -/
theorem exists_stdout {p : Primitives} {r : Request} {program : Program}
    (h : Program.parse p r.unlocking r.locking = .ok program) (sink : Sink) (time : Int)
    (trace : Bool) :
    ∃ rest, (r.report p sink time trace).stdout = program.listing ++ "\n" ++ rest := by
  rw [report, h]
  cases r.spending? with
  | none => exact ⟨_, rfl⟩
  | some spending =>
    obtain ⟨tx, input⟩ := spending
    dsimp only
    simp only [String.append_assoc]
    exact ⟨_, rfl⟩

end CommandLine.Request

namespace Program

open CommandLine Operation

variable {p : Primitives}

/-- **A listing tells the script byte for byte.** Two pairs of scripts that can be read are listed
alike exactly if they are one script when joined, and so are pairs that are reported on alike,
whatever else the reports show. -/
theorem listing_of_parse {u l u' l' : Bytes} {a b : Program} (h : parse p u l = .ok a)
    (h' : parse p u' l' = .ok b) :
    (a.listing = b.listing ↔ u ++ l = u' ++ l') ∧
    ∀ (r r' : Request) (sink sink' : Sink) (time time' : Int) (trace trace' : Bool),
      (r.unlocking, r.locking) = (u, l) → (r'.unlocking, r'.locking) = (u', l') →
      (r.report p sink time trace).stdout = (r'.report p sink' time' trace').stdout →
        u ++ l = u' ++ l' := by
  refine ⟨⟨fun hlisting => ?_, fun hscript => ?_⟩, ?_⟩
  · have hmore : a.listing ++ "\n" ++ "" = b.listing ++ "\n" ++ "" := by rw [hlisting]
    exact (operations_eq_iff h h').mp (operations_eq_of_listing hmore)
  · rw [listing, listing, (operations_eq_iff h h').mpr hscript]
  · rintro r r' sink sink' time time' trace trace' ⟨⟩ ⟨⟩ hstdout
    obtain ⟨rest, hrest⟩ := Request.exists_stdout h sink time trace
    obtain ⟨rest', hrest'⟩ := Request.exists_stdout h' sink' time' trace'
    rw [hrest, hrest'] at hstdout
    exact (operations_eq_iff h h').mp (operations_eq_of_listing hstdout)

/-- A push that begins in the unlocking script is listed like one in the locking script, but not
like the opcode for the same number. -/
theorem listing_of_parse_across :
    ∃ a b c, parse Primitives.standard [0x01] [0x07] = .ok a ∧
      parse Primitives.standard [] [0x01, 0x07] = .ok b ∧
      parse Primitives.standard [] [0x57] = .ok c ∧
      a.listing = b.listing ∧ b.listing ≠ c.listing := by
  have hpush : operationsOf [0x01, 0x07] = .ok [.push [0x07]] :=
    (operationsOf_eq_ok_iff _ _).mpr ⟨by simp [InScript], by decide⟩
  have hcode : operationsOf [0x57] = .ok [.code (.immediate ⟨7, by decide⟩)] :=
    (operationsOf_eq_ok_iff _ _).mpr ⟨by simp [InScript], by decide⟩
  have ha : parse Primitives.standard [0x01] [0x07] = .ok _ := parse_of_operationsOf hpush
  have hb : parse Primitives.standard [] [0x01, 0x07] = .ok _ := parse_of_operationsOf hpush
  have hc : parse Primitives.standard [] [0x57] = .ok _ := parse_of_operationsOf hcode
  exact ⟨_, _, _, ha, hb, hc, (listing_of_parse ha hb).1.mpr (by decide),
    fun hlisting => absurd ((listing_of_parse hb hc).1.mp hlisting) (by decide)⟩

end Program

end SpendScript
