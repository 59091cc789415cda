import SpendScript.Proofs.Script.Effect

/-!
# The stack as a list of items

Any calls on the empty stack, refused ones among them, leave it as they leave a list of items: the
items lie back to back in the buffer, and every question is answered as the list answers it. This
holds as long as the items and their bytes can be counted in 31 bits.

* `Stack.Call`, `Call.run`, `Call.onList`: a call on the stack, and on the list;
* `Stack.Countable`: lists whose items and bytes can be counted;
* `Action.Underflows`: a refusal for want of items, which changes nothing;
* **`Stack.Call.apply_run`**: one call; **`holds_runAll`**: any calls;
* `top_iff`, `peek_iff`: the two questions for items;
* **`Stack.refines_list`**: the stack after any calls.
-/

namespace SpendScript

namespace Stack

/-- A call that changes the stack. -/
inductive Call
  | push (bytes : Bytes)
  | pushBool (flag : Bool)
  | pushInt (v : Int)
  | pop (count : Nat)
  | clear
  deriving DecidableEq, Repr

/-- The items and their bytes can be counted in 31 bits. -/
structure Countable (items : List Bytes) : Prop where
  items_lt : items.length < 2 ^ 31
  bytes_lt : items.flatten.length < 2 ^ 31

end Stack

/-- The action is refused for want of items and leaves everything as it is. -/
def Action.Underflows {α : Type} (x : Action α) (m : Machine) : Prop :=
  ∃ f : Fault, f.error = .stackUnderflow ∧ x.apply m = (.error (.fault f), m)

namespace Stack

theorem Countable.fits {items : List Bytes} (h : Countable items) : Fits items.reverse := by
  refine ⟨placed_of_length_flatten ?_, ?_⟩
  · rw [length_flatten_reverse]
    exact h.bytes_lt
  · rw [List.length_reverse]
    exact h.items_lt

namespace Call

def run : Call → Action Unit
  | push bytes => Action.push bytes
  | pushBool flag => Action.pushBool flag
  | pushInt v => Action.pushInt v
  | pop count => Action.pop count
  | clear => Action.clear

/-- What a call does to a list of items, bottom first; nothing if it is refused. -/
def onList : Call → List Bytes → Option (List Bytes)
  | push bytes, items => some (items ++ [bytes])
  | pushBool flag, items => some (items ++ [if flag then [1] else []])
  | pushInt v, items => some (items ++ [ScriptNumber.encode v])
  | pop count, items =>
    if items.length < count then none else some (items.take (items.length - count))
  | clear, _ => some []

/-- The list after a call; a refused call leaves it as it is. -/
def after (items : List Bytes) (call : Call) : List Bytes := (call.onList items).getD items

/-- The machine after calls, whatever became of each. -/
def runAll (calls : List Call) (m : Machine) : Machine :=
  calls.foldl (fun m call => (call.run.apply m).2) m

/-- The list after calls. -/
def onListAll (calls : List Call) (items : List Bytes) : List Bytes := calls.foldl after items

variable {call : Call} {m : Machine} {items : List Bytes}

/-- Pushing an item. -/
theorem apply_push (hm : m.stack.Holds items) {item : Bytes} (h : Countable (items ++ [item])) :
    ∃ s, (Action.push item).apply m = (.ok (), { m with stack := s }) ∧
      s.Holds (items ++ [item]) := by
  obtain ⟨stack, log, ints⟩ := m
  obtain ⟨rfl, -⟩ := holds_iff.mp hm
  have hfits := h.fits
  rw [List.reverse_append, List.reverse_singleton, List.singleton_append] at hfits
  refine ⟨ofItems (item :: items.reverse), ?_, holds_concat hfits⟩
  rw [Action.push, Action.apply_append, append_ofItems, (appendInts_eq_exact item).mpr hfits,
    Ints.and_exact]

/-- Removing items. -/
theorem apply_pop (hm : m.stack.Holds items) (hitems : Countable items) (count : Nat) :
    if items.length < count then (Action.pop count).Underflows m
    else ∃ s, (Action.pop count).apply m = (.ok (), { m with stack := s }) ∧
      s.Holds (items.take (items.length - count)) := by
  obtain ⟨stack, log, ints⟩ := m
  obtain ⟨rfl, hfits⟩ := holds_iff.mp hm
  have hbytes := length_flatten_drop_le items.reverse count
  rw [length_flatten_reverse] at hbytes
  have hrun := Action.apply_pop_ofItems (Nat.lt_of_le_of_lt hbytes hitems.bytes_lt) log ints
  rw [size_ofItems hfits.count, List.length_reverse] at hrun
  split
  · next h =>
    rw [if_pos (by omega)] at hrun
    exact ⟨_, rfl, hrun⟩
  · next h =>
    rw [if_neg (by omega)] at hrun
    refine ⟨_, hrun, ?_⟩
    rw [List.drop_reverse]
    exact holds_iff.mpr ⟨rfl, List.drop_reverse ▸ hfits.drop count⟩

/-- **One call** does to the items what it does to the list of them. -/
theorem apply_run (hm : m.stack.Holds items) (hitems : Countable items) (call : Call) :
    match call.onList items with
    | some items' => Countable items' →
        ∃ s, call.run.apply m = (.ok (), { m with stack := s }) ∧ s.Holds items'
    | none => call.run.Underflows m := by
  cases call with
  | push bytes => exact apply_push hm
  | pushBool flag => cases flag <;> exact apply_push hm
  | pushInt v => exact apply_push hm
  | clear => exact fun _ => ⟨empty, rfl, ⟨⟨trivial, rfl⟩, rfl⟩⟩
  | pop count =>
    have hpop := apply_pop hm hitems count
    rw [onList]
    split at hpop
    · rwa [if_pos ‹_›]
    · rw [if_neg ‹_›]
      exact fun _ => hpop

/-- A call that is not refused succeeds. -/
theorem underflows_or_ok (hm : m.stack.Holds items) (hitems : Countable items) (call : Call) :
    call.run.Underflows m ∨ (call.run.apply m).1 = .ok () := by
  cases call with
  | push bytes => exact Or.inr rfl
  | pushBool flag => exact Or.inr rfl
  | pushInt v => exact Or.inr rfl
  | clear => exact Or.inr rfl
  | pop count =>
    have hpop := apply_pop hm hitems count
    split at hpop
    · exact Or.inl hpop
    · obtain ⟨s, hs, -⟩ := hpop
      exact Or.inr (congrArg Prod.fst hs)

/-- **Any calls** do to the items what they do to the list of them, and all ints are exact. -/
theorem holds_runAll {calls : List Call} (hm : m.stack.Holds items)
    (h : ∀ k, Countable (onListAll (calls.take k) items)) :
    (runAll calls m).stack.Holds (onListAll calls items) ∧ (runAll calls m).ints = m.ints := by
  induction calls generalizing m items with
  | nil => exact ⟨hm, rfl⟩
  | cons call calls ih =>
    have hcall := apply_run hm (h 0) call
    have hrest (k : Nat) : Countable (onListAll (calls.take k) (after items call)) := h (k + 1)
    change (runAll calls (call.run.apply m).2).stack.Holds (onListAll calls (after items call)) ∧
      (runAll calls (call.run.apply m).2).ints = m.ints
    have hafter : after items call = (call.onList items).getD items := rfl
    cases hlist : call.onList items with
    | none =>
      rw [hlist] at hcall hafter
      rw [hafter] at hrest ⊢
      obtain ⟨f, -, hf⟩ := hcall
      rw [hf]
      exact ih hm hrest
    | some items' =>
      rw [hlist] at hcall hafter
      rw [hafter] at hrest ⊢
      obtain ⟨s, hs, hholds⟩ := hcall (hrest 0)
      rw [hs]
      exact ih hholds hrest

end Call

/-! ## Questions -/

/-- A look that finds something or is refused for want of items. -/
theorem finds_iff {α : Type} {x : Action α} {m : Machine} {found : Option α} {f : Fault}
    (hf : f.error = .stackUnderflow)
    (hx : x.apply m = (found.elim (.error (.fault f)) .ok, m)) :
    (x.Underflows m ↔ found = none) ∧ ∀ a, x.apply m = (.ok a, m) ↔ found = some a := by
  unfold Action.Underflows
  rw [hx]
  cases found with
  | none => exact ⟨⟨fun _ => rfl, fun _ => ⟨f, hf, rfl⟩⟩, fun a => by simp⟩
  | some b => simp

variable {m : Machine} {items : List Bytes}

theorem top_iff (hm : m.stack.Holds items) :
    (Action.top.Underflows m ↔ items = []) ∧
      ∀ item, Action.top.apply m = (.ok item, m) ↔ items.getLast? = some item := by
  obtain ⟨stack, log, ints⟩ := m
  obtain ⟨rfl, hfits⟩ := holds_iff.mp hm
  have htop : Action.top.apply ⟨ofItems items.reverse, log, ints⟩ =
      (items.getLast?.elim (.error (.fault .topOfEmpty)) .ok,
        ⟨ofItems items.reverse, log, ints⟩) := by
    obtain rfl | ⟨below, item, rfl⟩ := items.eq_nil_or_concat
    · rfl
    · rw [List.concat_eq_append, List.reverse_append] at hfits ⊢
      rw [List.getLast?_concat]
      exact Action.apply_top_cons log ints hfits.placed
  have h := finds_iff rfl htop
  rwa [List.getLast?_eq_none_iff] at h

theorem peek_iff (hm : m.stack.Holds items) (position : Int) :
    ((Action.peek position).Underflows m ↔ position < 0 ∨ (items.length : Int) ≤ position) ∧
      ∀ item, (Action.peek position).apply m = (.ok item, m) ↔
        0 ≤ position ∧ items.reverse[position.toNat]? = some item := by
  obtain ⟨stack, log, ints⟩ := m
  obtain ⟨rfl, hfits⟩ := holds_iff.mp hm
  by_cases hp : position < 0
  · have hpeek : (ofItems items.reverse).peek position = .error (.fault (.noItem position)) :=
      if_pos (Or.inl hp)
    have hrun : (Action.peek position).apply ⟨ofItems items.reverse, log, ints⟩ =
        ((none : Option Bytes).elim (.error (.fault (.noItem position))) .ok,
          ⟨ofItems items.reverse, log, ints⟩) := by
      rw [Action.peek, Action.apply_bind, Action.view, Action.apply_inspect, hpeek]
      rfl
    have h := finds_iff rfl hrun
    have hp' : ¬ 0 ≤ position := by omega
    exact ⟨h.1.trans (by simp [hp]), fun item => (h.2 item).trans (by simp [hp'])⟩
  · obtain ⟨k, rfl⟩ := Int.eq_ofNat_of_zero_le (Int.not_lt.mp hp)
    have h := finds_iff rfl (Action.apply_peek log ints hfits k)
    refine ⟨h.1.trans ?_, fun item => (h.2 item).trans (by simp)⟩
    rw [List.getElem?_eq_none_iff, List.length_reverse]
    omega

/-! ## The stack after any calls -/

/-- **The stack after any calls**, refused ones among them, holds the list that the same calls
leave, back to back from the start of the buffer, so that no place lies beyond the bytes of its
items and the topmost item ends where the buffer does. It answers as the list does. Removing is
refused exactly if there are not that many items, looking exactly if there is no such item, and what
is refused changes nothing. This is so as long as the items and their bytes could be counted in 31
bits after each of the calls; then no int was made that is not exact. -/
theorem refines_list (calls : List Call) (log : Log)
    (hcountable : ∀ k, Countable (Call.onListAll (calls.take k) [])) :
    let m := Call.runAll calls ⟨empty, log, .exact⟩
    let items := Call.onListAll calls []
    m.stack.Holds items ∧ m.ints = .exact ∧
    (∀ span ∈ m.stack.spans, span.offset.toInt + span.size.toInt ≤ items.flatten.length) ∧
    m.stack.buffer.size = items.flatten.length ∧ m.stack.stop.toInt = m.stack.buffer.size ∧
    m.stack.size.toInt = items.length ∧ m.stack.isEmpty = items.isEmpty ∧
    ((Action.top.Underflows m ↔ items = []) ∧
      ∀ item, Action.top.apply m = (.ok item, m) ↔ items.getLast? = some item) ∧
    (∀ position : Int,
      ((Action.peek position).Underflows m ↔ position < 0 ∨ (items.length : Int) ≤ position) ∧
      ∀ item, (Action.peek position).apply m = (.ok item, m) ↔
        0 ≤ position ∧ items.reverse[position.toNat]? = some item) ∧
    (∀ count, (Action.pop count).Underflows m ↔ items.length < count) ∧
    (∀ call : Call, call.run.Underflows m ∨ (call.run.apply m).1 = .ok ()) := by
  intro m items
  have hempty : Stack.empty.Holds [] := ⟨⟨trivial, rfl⟩, rfl⟩
  obtain ⟨hholds, hints⟩ := Call.holds_runAll (m := ⟨empty, log, .exact⟩) hempty hcountable
  have hitems : Countable items := by
    have h := hcountable calls.length
    rwa [List.take_length] at h
  have hbytes : m.stack.buffer.size = items.flatten.length := by
    rw [← hholds.buffer, Bytes.length_ofArray]
  refine ⟨hholds, hints, fun span hspan => ?_, hbytes, hholds.stop_eq hitems.bytes_lt, hholds.size,
    ?_, top_iff hholds, peek_iff hholds, fun count => ?_,
    Call.underflows_or_ok hholds hitems⟩
  · have hstop := hholds.laid.stop_le span (Array.mem_def.mp hspan)
    exact Int.le_trans hstop (Int.le_of_eq (Int.zero_add _))
  · have hlength := hholds.laid.length_eq
    rw [Array.length_toList] at hlength
    rw [Bool.eq_iff_iff, isEmpty, Array.isEmpty_iff_size_eq_zero, List.isEmpty_iff_length_eq_zero,
      hlength]
  · have hpop := Call.apply_pop hholds hitems count
    split at hpop
    · next h => exact iff_of_true hpop h
    · next h =>
      obtain ⟨s, hs, -⟩ := hpop
      refine iff_of_false ?_ h
      rintro ⟨f, -, hf⟩
      rw [hs] at hf
      cases hf

/-- Removing three of two items is refused and changes nothing; one of them can be removed then. -/
theorem refines_list_refused :
    let calls : List Call := [.push [1, 2], .pushBool false, .pop 3, .pop 1]
    let m := Call.runAll calls ⟨empty, [], .exact⟩
    m.stack.Holds [[1, 2]] ∧ (Action.pop 2).Underflows m := by
  intro calls m
  have hcountable (k : Nat) : Countable (Call.onListAll (calls.take k) []) := by
    have hshort : Call.onListAll (calls.take k) [] ∈ [[], [[1, 2]], [[1, 2], []]] := by
      rcases k with _ | _ | _ | _ | k <;> simp [calls, Call.onListAll, Call.after, Call.onList]
    simp only [List.mem_cons, List.not_mem_nil, or_false] at hshort
    rcases hshort with h | h | h <;> rw [h] <;> exact ⟨by decide, by decide⟩
  obtain ⟨hholds, -, -, -, -, -, -, -, -, hpop, -⟩ := refines_list calls [] hcountable
  exact ⟨hholds, (hpop 2).mpr (by decide)⟩

end Stack

end SpendScript
