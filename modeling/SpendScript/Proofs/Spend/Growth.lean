import Mathlib.Algebra.Order.BigOperators.Group.List
import Mathlib.Algebra.Order.Ring.Nat
import SpendScript.Proofs.Script.Number
import SpendScript.Proofs.Spend.Verdict

/-!
# How far stacks grow

An operation pushes two items at most, and no item is longer than the data that a script can push.
So a stack grows with the number of operations only, and as long as scripts are not too long, every
int that is made on the way is exact: no call of any operation makes one that is not.

* `IsShort`, `Stack.Short`: few items, none of them long; `Stack.fits_of_isShort`;
* `Stack.Short.append`, `Stack.Short.pop`: one call; **`Action.kept_short`**: all calls;
* **`Operation.short_run`**: one operation; `short_observations`, `ints_runFrom`: programs;
* **`Program.ints_run`**, `exists_verdict_run`: scripts that are not too long;
* **`Program.run_growth`**: the bounds for the scripts of a spending.
-/

namespace SpendScript

open Stack

/-- An item that is no longer than the data that a script can push. -/
def IsShort (item : Bytes) : Prop := item.length ≤ 75

/-- At most `n` items, all of them short. As long as that many short items can be counted in 31
bits, the stack is the one of its items; beyond, this much is still known of it. -/
structure Stack.Short (n : Nat) (s : Stack) : Prop where
  size_le : s.spans.size ≤ n
  span_le : ∀ span ∈ s.spans, 0 ≤ span.size.toInt ∧ span.size.toInt ≤ 75
  buffer_le : s.buffer.size ≤ 75 * n
  holds : 75 * n < 2 ^ 31 → ∃ items, s = ofItems items ∧ items.length ≤ n ∧
    ∀ item ∈ items, IsShort item

namespace Stack

variable {s : Stack} {n : Nat}

theorem short_empty : Short 0 empty where
  size_le := Nat.le_refl 0
  span_le := by simp [empty]
  buffer_le := Nat.le_refl 0
  holds _ := ⟨[], rfl, Nat.le_refl 0, by simp⟩

theorem Short.mono {n' : Nat} (h : s.Short n) (hn : n ≤ n') : s.Short n' where
  size_le := Nat.le_trans h.size_le hn
  span_le := h.span_le
  buffer_le := Nat.le_trans h.buffer_le (Nat.mul_le_mul_left 75 hn)
  holds hlt := by
    obtain ⟨items, hs, hlength, hshort⟩ := h.holds (by omega)
    exact ⟨items, hs, Nat.le_trans hlength hn, hshort⟩

theorem length_flatten_le {items : List Bytes} (h : ∀ item ∈ items, IsShort item) :
    items.flatten.length ≤ 75 * items.length := by
  have hsum : (items.map List.length).sum ≤ (items.map List.length).length * 75 :=
    List.sum_le_card_nsmul _ 75 (List.forall_mem_map.mpr h)
  rw [List.length_flatten, Nat.mul_comm]
  rwa [List.length_map] at hsum

theorem fits_of_isShort {items : List Bytes} (h : ∀ item ∈ items, IsShort item)
    (hlength : items.length ≤ n) (hn : 75 * n < 2 ^ 31) : Fits items := by
  have hbytes := length_flatten_le h
  exact ⟨placed_of_length_flatten (by omega), by omega⟩

theorem Short.exists_fits (h : s.Short n) (hn : 75 * n < 2 ^ 31) : ∃ items, s = ofItems items ∧
    items.length ≤ n ∧ (∀ item ∈ items, IsShort item) ∧ Fits items := by
  obtain ⟨items, hs, hlength, hshort⟩ := h.holds hn
  exact ⟨items, hs, hlength, hshort, fits_of_isShort hshort hlength hn⟩

/-! ## One call -/

/-- What lies at a place has the length that the place tells. -/
theorem size_of_slice {span : Span} {item : ByteArray} (h : s.slice span = .ok item) :
    (item.size : Int) = span.size.toInt := by
  rw [slice] at h
  split at h
  · cases h
    rw [ByteArray.size_extract]
    omega
  · cases h

theorem Short.isShort_of_slice (h : s.Short n) {span : Span} (hspan : span ∈ s.spans)
    {item : ByteArray} (hitem : s.slice span = .ok item) : IsShort (Bytes.ofArray item) := by
  have hsize := size_of_slice hitem
  have hle := (h.span_le span hspan).2
  rw [IsShort, Bytes.length_ofArray]
  omega

theorem Short.isShort_of_mem (h : s.Short n) {item : Bytes} (hitem : item ∈ s.toList) :
    IsShort item := by
  obtain ⟨span, hspan, rfl⟩ := List.mem_map.mp hitem
  cases hslice : s.slice span with
  | error e => exact Nat.zero_le 75
  | ok found => exact h.isShort_of_slice (Array.mem_def.mpr hspan) hslice

theorem Short.isShort_of_top (h : s.Short n) {item : ByteArray} (htop : s.top = .ok item) :
    IsShort (Bytes.ofArray item) := by
  rw [top] at htop
  cases hback : s.spans.back? with
  | none =>
    rw [hback] at htop
    cases htop
  | some span =>
    rw [hback] at htop
    exact h.isShort_of_slice (Array.mem_of_back? hback) (mapError_eq_ok_iff.mp htop)

theorem mem_of_spanAt {index : Int32} {span : Span} (h : s.spanAt index = .ok span) :
    span ∈ s.spans := by
  rw [spanAt] at h
  split at h
  · cases h
  · split at h
    · cases h
    · next hspan =>
      cases h
      exact Array.mem_of_getElem? hspan

theorem Short.isShort_of_peek (h : s.Short n) {position : Int} {item : ByteArray}
    (hpeek : s.peek position = .ok item) : IsShort (Bytes.ofArray item) := by
  rw [peek] at hpeek
  split at hpeek
  · cases hpeek
  · have hpeek := mapError_eq_ok_iff.mp hpeek
    cases hspan : s.spanAt (.ofInt (s.spans.size - 1 - position)) with
    | error e =>
      rw [hspan] at hpeek
      cases hpeek
    | ok span =>
      rw [hspan] at hpeek
      exact h.isShort_of_slice (mem_of_spanAt hspan) hpeek

theorem Short.append (h : s.Short n) {item : Bytes} (hitem : IsShort item) :
    (s.push item).Short (n + 1) where
  size_le := by
    have hsize := h.size_le
    change (s.spans.push _).size ≤ n + 1
    rw [Array.size_push]
    omega
  span_le span hspan := by
    change span ∈ s.spans.push _ at hspan
    obtain hspan | rfl := Array.mem_push.mp hspan
    · exact h.span_le span hspan
    · have hlength : item.toByteArray.size ≤ 75 := by rwa [List.size_toByteArray]
      have hsize : (Int32.ofNat item.toByteArray.size).toInt = item.toByteArray.size :=
        Int32.toInt_ofNat_of_lt (by omega)
      rw [hsize]
      omega
  buffer_le := by
    have hbuffer := h.buffer_le
    have hlength : item.length ≤ 75 := hitem
    change (s.buffer ++ item.toByteArray).size ≤ 75 * (n + 1)
    rw [ByteArray.size_append, List.size_toByteArray]
    omega
  holds hn := by
    obtain ⟨items, rfl, hlength, hshort⟩ := h.holds (by omega)
    exact ⟨item :: items, rfl, Nat.succ_le_succ hlength, List.forall_mem_cons.mpr ⟨hitem, hshort⟩⟩

theorem short_ofItems {items : List Bytes} (h : ∀ item ∈ items, IsShort item)
    (hlength : items.length ≤ n) : (ofItems items).Short n := by
  refine Short.mono ?_ hlength
  clear hlength
  induction items with
  | nil => exact short_empty
  | cons item below ih =>
    obtain ⟨hitem, hbelow⟩ := List.forall_mem_cons.mp h
    exact (ih hbelow).append hitem

/-- Where so much lies on the stack that places may be wrong, removing items still leaves no more
spans, none longer, and no buffer that an int cannot measure. -/
theorem Short.trim (h : s.Short n) (hn : 2 ^ 31 ≤ 75 * n) {count : Nat} {left s' : Stack}
    (hleft : s.drop count = .ok left) (hs' : left.trim = .ok s') : s'.Short n := by
  rw [drop] at hleft
  split at hleft
  · cases hleft
  cases hleft
  rw [Stack.trim] at hs'
  split at hs'
  · cases hs'
  cases hs'
  refine ⟨?_, fun span hspan => ?_, ?_, fun hlt => absurd hlt (Nat.not_lt.mpr hn)⟩
  · have hsize := h.size_le
    rw [Array.size_shrink]
    omega
  · rw [Array.mem_def, Array.toList_shrink] at hspan
    exact h.span_le span (Array.mem_def.mpr (List.mem_of_mem_take hspan))
  · -- the buffer is as long as an int says
    generalize hstop : Stack.stop _ = stop
    have hlt := stop.toInt_lt
    have hzeros (k : Nat) : (ByteArray.mk (Array.replicate k 0)).size = k := Array.size_replicate
    rw [ByteArray.size_append, ByteArray.size_extract, hzeros]
    omega

end Stack

/-! ## All calls -/

namespace Action

variable {env : Environment}

/-- The stack is short, and no int of it went wrong if that many short items can be counted. -/
structure Tame (n : Nat) (m : Machine) : Prop where
  short : m.stack.Short n
  exact : 75 * n < 2 ^ 31 → m.ints = .exact

theorem Tame.mono {n n' : Nat} {m : Machine} (h : Tame n m) (hn : n ≤ n') : Tame n' m :=
  ⟨h.short.mono hn, fun hlt => h.exact (by omega)⟩

/-- A look at a short stack finds something short, or is refused; it goes wrong only where the
items are too many. -/
theorem tame_inspect {look : Stack → Except Interruption ByteArray} {n : Nat} {m : Machine}
    (hm : Tame n m) (hshort : ∀ item, look m.stack = .ok item → IsShort (Bytes.ofArray item))
    (hlook : ∀ items e, Fits items → look (ofItems items) ≠ .error (.access e)) :
    Ends (Tame n) (fun _ => 2 ^ 31 ≤ 75 * n) (fun item => IsShort (Bytes.ofArray item))
      ((inspect look).apply m) := by
  rw [apply_inspect]
  rcases h : look m.stack with (f | e) | item
  · exact hm
  · refine Nat.le_of_not_lt fun hlt => ?_
    obtain ⟨items, hstack, -, -, hfits⟩ := hm.short.exists_fits hlt
    exact hlook items e hfits (hstack ▸ h)
  · exact ⟨hshort item h, hm⟩

theorem tame_pop {n count : Nat} {m : Machine} (hcount : 0 < count) (hm : Tame n m) :
    Ends (Tame n) (fun _ => 2 ^ 31 ≤ 75 * n) (fun _ => True) ((pop count).apply m) := by
  obtain ⟨stack, log, ints⟩ := m
  -- the stack is known item by item, or else there may be so many that only bounds are left
  by_cases hlt : 75 * n < 2 ^ 31
  · obtain ⟨items, rfl, hlength, hshort, hfits⟩ := hm.short.exists_fits hlt
    rw [apply_pop_ofItems (hfits.placed.length_flatten_drop_lt hcount)]
    split
    · exact hm
    · have hdropped : ∀ item ∈ items.drop count, IsShort item :=
        fun item hitem => hshort item (List.mem_of_mem_drop hitem)
      have hleft : (items.drop count).length ≤ n := by
        rw [List.length_drop]
        omega
      exact ⟨trivial, short_ofItems hdropped hleft, hm.exact⟩
  · rw [apply_pop]
    cases hleft : stack.drop count with
    | error f => exact hm
    | ok left =>
      dsimp only
      cases hs : left.trim with
      | ok s =>
        exact ⟨trivial, hm.short.trim (Nat.not_lt.mp hlt) hleft hs, fun h => absurd h hlt⟩
      | error e => exact Nat.not_lt.mp hlt

/-- **What every call keeps**: few items, none of them long, and exact ints as long as there are not
too many. -/
theorem kept_short (henv : env.Answers) :
    Kept env IsShort Tame (fun n _ => 2 ^ 31 ≤ 75 * n) where
  mono hn h := h.mono hn
  mono_error hn h := Nat.le_trans h (Nat.mul_le_mul_left 75 hn)
  viewTop hm := tame_inspect hm (fun _ => hm.short.isShort_of_top)
    fun _ e hfits => top_ne_access hfits.placed e
  view position hm := tame_inspect hm (fun _ => hm.short.isShort_of_peek)
    fun _ e hfits => peek_ne_access hfits.placed position e
  pop hcount hm := tame_pop hcount hm
  append {n m item} hitem hm := by
    rw [← Bytes.toByteArray_ofArray item]
    refine ⟨hm.short.append hitem, fun hlt => ?_⟩
    obtain ⟨items, hstack, hlength, hshort, -⟩ := hm.short.exists_fits (by omega)
    have hfits : Fits (Bytes.ofArray item :: items) :=
      fits_of_isShort (List.forall_mem_cons.mpr ⟨hitem, hshort⟩) (Nat.succ_le_succ hlength) hlt
    rw [apply_append, hstack, (appendInts_eq_exact _).mpr hfits, Ints.and_exact]
    exact hm.exact (by omega)
  check {n m} signature key hm := by
    obtain ⟨⟨answer, log⟩, h⟩ := henv signature key
    rw [apply_check, h]
    exact ⟨trivial, hm.short, hm.exact⟩

end Action

/-! ## Runs -/

section Runs

variable {env : Environment} (henv : env.Answers) (hadmits : env.Admits IsShort)
include henv

theorem Program.short_finish {s : Stack} {n : Nat} (hs : s.Short n) (hn : 75 * n < 2 ^ 31) :
    (finish s).2.ints = .exact := by
  have hcomposed : Action.Composed env IsShort True 0 (fun _ => True) Action.takeTruth :=
    Action.composed_takeTruth
  have hends := hcomposed.ends (Action.kept_short henv) (m := .on s) ⟨hs, fun _ => rfl⟩
  obtain ⟨log, hfinish⟩ := finish_eq s
  rw [hfinish]
  rcases hrun : Action.takeTruth.apply (.on s) with ⟨(f | e) | ok, m⟩ <;> rw [hrun] at hends
  · exact hends.exact hn
  · exact absurd hends (Nat.not_le.mpr hn)
  · exact hends.2.exact hn

include hadmits

theorem Operation.short_run {op : Operation} (hop : ∀ data, op = .push data → IsShort data)
    {s : Stack} {n : Nat} (hs : s.Short n) :
    Action.Ends (Action.Tame (n + 2)) (fun _ => 2 ^ 31 ≤ 75 * (n + 2)) (fun _ => True)
      ((op.run env).apply (.on s)) :=
  (composed_run (D := True) hadmits hop fun _ => trivial).ends (Action.kept_short henv)
    ⟨hs, fun _ => rfl⟩

namespace Program

theorem short_attempt {op : Operation} (hop : ∀ data, op = .push data → IsShort data)
    (index : Nat) {s : Stack} {n : Nat} (hs : s.Short n) :
    (∀ ok, (op.attempt env index s).1 = .ok ok → (op.attempt env index s).2.stack.Short (n + 2)) ∧
      (75 * (n + 2) < 2 ^ 31 →
        (∃ ok, (op.attempt env index s).1 = .ok ok) ∧
          (op.attempt env index s).2.ints = .exact) := by
  have hends := Operation.short_run henv hadmits hop hs
  rw [op.attempt_fst, op.stack_attempt, op.ints_attempt]
  rcases hrun : (op.run env).apply (.on s) with ⟨(f | e) | ok, m⟩ <;> rw [hrun] at hends
  · exact ⟨fun _ _ => hends.short, fun hlt => ⟨⟨false, rfl⟩, hends.exact hlt⟩⟩
  · exact ⟨nofun, fun hlt => absurd hends (Nat.not_le.mpr hlt)⟩
  · exact ⟨fun _ _ => hends.2.short, fun hlt => ⟨⟨ok, rfl⟩, hends.2.exact hlt⟩⟩

/-- What an observer is shown has grown by two items for each operation at most. -/
theorem short_observations {ops : List Operation}
    (hops : ∀ op ∈ ops, ∀ data, op = .push data → IsShort data) (index : Nat) {s : Stack}
    {n k : Nat} {step : Step} (hs : s.Short n)
    (h : (runFrom env id index ops s).observations[k]? = some step) :
    step.stack.Short (n + 2 * (k + 1)) := by
  induction ops generalizing index s n k with
  | nil => cases h
  | cons op ops ih =>
    obtain ⟨hop, hops⟩ := List.forall_mem_cons.mp hops
    obtain ⟨hstep, -⟩ := short_attempt henv hadmits hop index hs
    have hlast {ok : Bool} {m : Machine} (hm : m.stack.Short (n + 2))
        (h : [Step.mk index op ok m.stack][k]? = some step) :
        step.stack.Short (n + 2 * (k + 1)) := by
      obtain ⟨hk, rfl⟩ := List.getElem?_eq_some_iff.mp h
      rw [List.getElem_singleton]
      exact hm.mono (by omega)
    rw [runFrom] at h
    rcases hrun : op.attempt env index s with ⟨e | (_ | _), m⟩ <;> rw [hrun] at h hstep
    · cases h
    · exact hlast (hstep false rfl) h
    · cases k with
      | zero => exact hlast (hstep true rfl) h
      | succ k => exact (ih hops (index + 1) (hstep true rfl) h).mono (by omega)

theorem short_stackAfter {ops : List Operation}
    (hops : ∀ op ∈ ops, ∀ data, op = .push data → IsShort data) {s s' : Stack} {n : Nat}
    (hs : s.Short n) (h : stackAfter env ops s = some s') : s'.Short (n + 2 * ops.length) := by
  induction ops generalizing s n with
  | nil =>
    cases h
    exact hs
  | cons op ops ih =>
    obtain ⟨hop, hops⟩ := List.forall_mem_cons.mp hops
    obtain ⟨hstep, -⟩ := short_attempt henv hadmits hop 0 hs
    rw [stackAfter_cons, op.stackAfter_eq_attempt env 0] at h
    rcases hrun : op.attempt env 0 s with ⟨e | (_ | _), m⟩ <;> rw [hrun] at h hstep
    · cases h
    · cases h
    · exact (ih hops (hstep true rfl) h).mono (by rw [List.length_cons]; omega)

/-- **No int goes wrong** in a run of few operations, its end included. -/
theorem ints_runFrom {α : Type} (observe : Step → α) {ops : List Operation}
    (hops : ∀ op ∈ ops, ∀ data, op = .push data → IsShort data) (index : Nat) {s : Stack} {n : Nat}
    (hs : s.Short n) (hn : 75 * (n + 2 * ops.length) < 2 ^ 31) :
    (runFrom env observe index ops s).ints = .exact := by
  induction ops generalizing index s n with
  | nil => exact short_finish henv hs hn
  | cons op ops ih =>
    obtain ⟨hop, hops⟩ := List.forall_mem_cons.mp hops
    rw [List.length_cons] at hn
    obtain ⟨hshort, hstep⟩ := short_attempt henv hadmits hop index hs
    obtain ⟨⟨ok, hok⟩, hints⟩ := hstep (by omega)
    rw [runFrom]
    rcases hrun : op.attempt env index s with ⟨e | (_ | _), m⟩ <;> rw [hrun] at hshort hok hints
    · cases hok
    · exact hints
    · have hrest := ih hops (index + 1) (hshort true rfl) (by omega)
      exact Ints.and_eq_exact_iff.mpr ⟨hints, hrest⟩

end Program

end Runs

/-! ## The scripts of a spending -/

/-- Digests and numbers of 64 bits are short. -/
theorem Spend.admits_isShort (p : Primitives) (spend : Spend) :
    (Spend.environment p spend).Admits IsShort where
  digest f item := by cases f <;> simp [environment, Spend.digest, IsShort]
  number v hv := by
    have hlength := (ScriptNumber.length_encode_le_iff v 8).mpr (by omega)
    exact Nat.le_trans hlength (by decide)

theorem Operation.InScript.isShort {op : Operation} (h : op.InScript) {data : Bytes}
    (hop : op = .push data) : IsShort data := by
  subst hop
  exact h.2

/-- Every operation takes a byte of the script at least. -/
theorem Operation.length_le_length_bytesOf {ops : List Operation} (h : ∀ op ∈ ops, op.InScript) :
    ops.length ≤ (bytesOf ops).length := by
  induction ops with
  | nil => exact Nat.le_refl 0
  | cons op ops ih =>
    obtain ⟨hop, hops⟩ := List.forall_mem_cons.mp h
    have hone : 1 ≤ op.bytes.length := by
      cases op with
      | push data => exact Nat.le_add_left 1 _
      | code op => exact Nat.le_refl 1
      | fail => exact hop.elim
    rw [bytesOf_cons, List.length_append, List.length_cons]
    have hrest := ih hops
    omega

namespace Program

/-- The operations of scripts push short items, and there are no more of them than bytes. -/
theorem short_of_parse {p : Primitives} {u l : Bytes} {program : Program}
    (h : parse p u l = .ok program) :
    (∀ op ∈ program.operations, ∀ data, op = .push data → IsShort data) ∧
      program.operations.length ≤ u.length + l.length := by
  obtain ⟨hin, hbytes⟩ := (operationsOf_eq_ok_iff _ _).mp (parse_eq_ok_iff.mp h).1
  have hcount := Operation.length_le_length_bytesOf hin
  rw [hbytes, List.length_append] at hcount
  exact ⟨fun op hop data => (hin op hop).isShort, hcount⟩

/-- **The ints of a run are exact** if the scripts are not too long. -/
theorem ints_run (p : Primitives) (spend : Spend) {u l : Bytes} {program : Program}
    (h : parse p u l = .ok program) (hlength : u.length + l.length < 14300000) {α : Type}
    (observe : Step → α) : (program.run (Spend.environment p spend) observe).ints = .exact := by
  obtain ⟨hshort, hcount⟩ := short_of_parse h
  rw [run_eq_runFrom]
  exact ints_runFrom (Spend.answers_environment p spend) (Spend.admits_isShort p spend) observe
    hshort 0 short_empty (by omega)

/-- So it has a verdict. -/
theorem exists_verdict_run (p : Primitives) (spend : Spend) {u l : Bytes} {program : Program}
    (h : parse p u l = .ok program) (hlength : u.length + l.length < 14300000) {α : Type}
    (observe : Step → α) :
    ∃ ok, (program.run (Spend.environment p spend) observe).verdict = .ok ok := by
  have hints := ints_run p spend h hlength observe
  rw [run_eq_runFrom] at hints ⊢
  exact guarded_runFrom Ints.guard_exact (Spend.answers_environment p spend) ⟨[], rfl, fits_nil⟩
    hints

/-- **How far a run grows.** After `k + 1` operations of the scripts of a spending, the last of
which may have failed, there are at most `2 * (k + 1)` items of at most 75 bytes each. So if the
scripts are not too long, no int of the stack ever goes wrong, and nothing goes wrong for want of a
right one: not while an operation is under way, and not at the end of the run. Each operation finds
a stack that holds items, as many as its int says and each as long as an int can tell; these are
the numbers that operations push which ask for them. -/
theorem run_growth (p : Primitives) (spend : Spend) {u l : Bytes} {program : Program}
    (h : parse p u l = .ok program) :
    let env := Spend.environment p spend
    (∀ k step, (program.run env id).observations[k]? = some step →
      step.stack.spans.size ≤ 2 * (k + 1) ∧
        (∀ span ∈ step.stack.spans, 0 ≤ span.size.toInt ∧ span.size.toInt ≤ 75) ∧
        (∀ item ∈ step.stack.toList, item.length ≤ 75) ∧
        step.stack.buffer.size ≤ 150 * (k + 1)) ∧
    (u.length + l.length < 14300000 →
      (program.run env id).ints = .exact ∧ (∃ ok, (program.run env id).verdict = .ok ok) ∧
      ∀ before after s, program.operations = before ++ after →
        stackAfter env before Stack.empty = some s →
          ∃ items, s.Holds items ∧ s.spans.size = items.length ∧
            (∀ item ∈ items, item.length ≤ 75 ∧ (Int32.ofNat item.length).toInt = item.length) ∧
            ∀ op rest, after = op :: rest →
              ((op.run env).apply (.on s)).2.ints = .exact ∧
                ∀ e, ((op.run env).apply (.on s)).1 ≠ .error (.access e)) := by
  intro env
  have henv : env.Answers := Spend.answers_environment p spend
  have hadmits := Spend.admits_isShort p spend
  obtain ⟨hshort, hcount⟩ := short_of_parse h
  refine ⟨fun k step hstep => ?_, fun hlength => ⟨ints_run p spend h hlength id,
    exists_verdict_run p spend h hlength id, fun before after s hops hs => ?_⟩⟩
  · rw [run_eq_runFrom] at hstep
    have hs := short_observations henv hadmits hshort 0 short_empty hstep
    have hsize := hs.size_le
    have hbuffer := hs.buffer_le
    exact ⟨by omega, hs.span_le, fun item => hs.isShort_of_mem, by omega⟩
  · rw [hops] at hshort hcount
    rw [List.length_append] at hcount
    obtain ⟨hbefore, hafter⟩ := List.forall_mem_append.mp hshort
    have hstack := short_stackAfter henv hadmits hbefore short_empty hs
    obtain ⟨items, rfl, hitems, hall, hfits⟩ := hstack.exists_fits (by omega)
    refine ⟨items.reverse, holds_ofItems hfits, by simp, fun item hitem => ?_, ?_⟩
    · have hle : item.length ≤ 75 := hall item (List.mem_reverse.mp hitem)
      exact ⟨hle, Int32.toInt_ofNat_of_lt (by omega)⟩
    · rintro op rest rfl
      rw [List.length_cons] at hcount
      have hends := Operation.short_run henv hadmits (hafter op List.mem_cons_self) hstack
      rcases hrun : (op.run env).apply (.on (ofItems items)) with ⟨(f | e) | ok, m⟩ <;>
        rw [hrun] at hends
      · exact ⟨hends.exact (by omega), nofun⟩
      · exact absurd hends (Nat.not_le.mpr (by omega))
      · exact ⟨hends.2.exact (by omega), nofun⟩

/-- Pushing a number and counting the items makes no int that is not exact. -/
theorem run_growth_depth :
    let ops : List Operation := [.code (.immediate ⟨1, by decide⟩), .code (.shuffle .depth)]
    (run (Spend.environment Primitives.standard ⟨Transaction.empty, 0, Coins.empty⟩) id
      ⟨ops, ""⟩).ints = .exact := by
  intro ops
  have hparse : parse Primitives.standard [0x51] [0x74] = .ok ⟨ops, ""⟩ :=
    parse_eq_ok_iff.mpr
      ⟨(operationsOf_eq_ok_iff _ _).mpr ⟨by simp [ops, Operation.InScript], by decide⟩, rfl⟩
  exact ((run_growth Primitives.standard ⟨Transaction.empty, 0, Coins.empty⟩ hparse).2
    (by decide)).1

end Program

end SpendScript
