import Mathlib.Data.Fin.VecNotation
import Mathlib.Data.List.Forall2
import Mathlib.Data.List.NodupEquivFin
import SpendScript.Proofs.Script.Effect
import SpendScript.Proofs.Script.Words

/-!
# Several signatures of several keys

The search gives every key to the first signature that it fits and stops early. It loses nothing: if
there is any way to give the signatures keys of their own in order, it finds one. What the operation
takes from the stack is fixed by the two counts on it.

* `Matches`, `matches_cons_of_valid`, `matches_cons_of_not_valid`, **`matches_iff_strictMono`**: the
  signatures find keys in order;
* **`apply_matchFrom`**: the search decides it;
* `apply_takeMany_eq_ok_iff`, **`apply_takeCounted_eq_ok_iff`**: what is taken from the stack;
* `Laid`, **`apply_checkMultiSig_eq_ok_iff`**: the stacks that the operation accepts;
* **`Opcode.run_checkMultiSig`**: the operation.
-/

namespace SpendScript

open SpendScript.Action Stack

/-! ## Taking items -/

namespace Action

theorem apply_bind_eq_ok {α β : Type} {x : Action α} {f : α → Action β} {m m' : Machine} {b : β} :
    (x >>= f).apply m = (.ok b, m') ↔
      ∃ a m₁, x.apply m = (.ok a, m₁) ∧ (f a).apply m₁ = (.ok b, m') := Stateful.apply_bind_eq_ok

variable {items taken : List Bytes} {log : Log} {ints : Ints} {m : Machine}

theorem apply_number_eq_ok_iff (h : Fits items) {n : Int} :
    (number 0).apply ⟨ofItems items, log, ints⟩ = (.ok n, m) ↔
      ∃ item below, items = item :: below ∧ ScriptNumber.operand item = .ok n ∧
        m = ⟨ofItems items, log, ints⟩ := by
  cases items with
  | nil =>
    constructor
    · intro h
      cases h
    · rintro ⟨item, below, hitems, -⟩
      cases hitems
  | cons item below =>
    have happly : (number 0).apply ⟨ofItems (item :: below), log, ints⟩ =
        ((ScriptNumber.operand item).mapError .fault, ⟨ofItems (item :: below), log, ints⟩) :=
      apply_number log ints h 0
    rw [happly, Prod.mk.injEq]
    constructor
    · rintro ⟨hn, rfl⟩
      refine ⟨item, below, rfl, ?_, rfl⟩
      cases hitem : ScriptNumber.operand item with
      | error f =>
        rw [hitem] at hn
        cases hn
      | ok k =>
        rw [hitem] at hn
        cases hn
        rfl
    · rintro ⟨_, _, hitems, hn, rfl⟩
      obtain ⟨rfl, rfl⟩ := List.cons.inj hitems
      rw [hn]
      exact ⟨rfl, rfl⟩

theorem apply_pop_eq_ok_iff (h : Fits items) {count : Nat} (hcount : 0 < count) :
    (pop count).apply ⟨ofItems items, log, ints⟩ = (.ok (), m) ↔
      count ≤ items.length ∧ m = ⟨ofItems (items.drop count), log, ints⟩ := by
  rw [apply_pop_ofItems (h.placed.length_flatten_drop_lt hcount), size_ofItems h.count]
  by_cases hlt : items.length < count
  · simp [hlt]
  · simp [hlt, Nat.not_lt.mp hlt, eq_comm]

/-- Taking items one after the other takes the front of the list and turns it around. -/
theorem apply_takeMany_eq_ok_iff (h : Fits items) {count : Nat} {above : List Bytes} :
    (takeMany count above).apply ⟨ofItems items, log, ints⟩ = (.ok taken, m) ↔
      ∃ front rest, front.length = count ∧ items = front ++ rest ∧
        taken = front.reverse ++ above ∧ m = ⟨ofItems rest, log, ints⟩ := by
  induction count generalizing items above with
  | zero =>
    rw [takeMany, apply_pure]
    constructor
    · intro h
      cases h
      exact ⟨[], items, rfl, rfl, rfl, rfl⟩
    · rintro ⟨front, rest, hlength, rfl, rfl, rfl⟩
      rw [List.length_eq_zero_iff.mp hlength]
      rfl
  | succ count ih =>
    cases items with
    | nil =>
      rw [takeMany, apply_bind, apply_takeTop_nil]
      constructor
      · intro h
        cases h
      · rintro ⟨front, rest, hlength, hnil, -, -⟩
        rw [(List.append_eq_nil_iff.mp hnil.symm).1] at hlength
        cases hlength
    | cons item below =>
      rw [takeMany, apply_bind, apply_takeTop_cons log ints h]
      refine (ih h.tail).trans ?_
      constructor
      · rintro ⟨front, rest, hlength, rfl, rfl, rfl⟩
        exact ⟨item :: front, rest, by rw [List.length_cons, hlength], rfl, by simp, rfl⟩
      · rintro ⟨front, rest, hlength, hitems, rfl, rfl⟩
        cases front with
        | nil => cases hlength
        | cons first front =>
          obtain ⟨rfl, rfl⟩ := List.cons.inj hitems
          exact ⟨front, rest, Nat.succ.inj hlength, rfl, by simp, rfl⟩

end Action

namespace Multisig

/-- **A counted list on the stack**: the count on top, and that many items below it. -/
theorem apply_takeCounted_eq_ok_iff {valid : Int → Bool} (hvalid : ∀ n, valid n = true → 0 ≤ n)
    {refusal : Int → Fault} {items taken : List Bytes} (hfits : Fits items) {log : Log}
    {ints : Ints} {m : Machine} :
    (takeCounted valid refusal).apply ⟨ofItems items, log, ints⟩ = (.ok taken, m) ↔
      ∃ count rest, items = count :: (taken.reverse ++ rest) ∧
        ScriptNumber.operand count = .ok taken.length ∧ valid taken.length = true ∧
        m = ⟨ofItems rest, log, ints⟩ := by
  rw [takeCounted, apply_bind_eq_ok]
  constructor
  · rintro ⟨n, m₁, hnumber, h⟩
    obtain ⟨count, below, rfl, hcount, rfl⟩ := (apply_number_eq_ok_iff hfits).mp hnumber
    cases hn : valid n with
    | false =>
      rw [hn] at h
      cases h
    | true =>
      rw [hn] at h
      obtain ⟨k, rfl⟩ := Int.eq_ofNat_of_zero_le (hvalid n hn)
      obtain ⟨_, m₂, hpop, h⟩ := apply_bind_eq_ok.mp h
      obtain ⟨-, rfl⟩ := (apply_pop_eq_ok_iff hfits Nat.one_pos).mp hpop
      rw [takeCount, if_neg (by omega), Int.toNat_natCast] at h
      obtain ⟨front, rest, rfl, hbelow, rfl, rfl⟩ := (apply_takeMany_eq_ok_iff hfits.tail).mp h
      obtain rfl : below = front ++ rest := hbelow
      exact ⟨count, rest, by simp, by simpa using hcount, by simpa using hn, rfl⟩
  · rintro ⟨count, rest, rfl, hcount, hn, rfl⟩
    refine ⟨taken.length, _, (apply_number_eq_ok_iff hfits).mpr ⟨count, _, rfl, hcount, rfl⟩,
      ?_⟩
    rw [hn]
    refine apply_bind_eq_ok.mpr
      ⟨(), _, (apply_pop_eq_ok_iff hfits Nat.one_pos).mpr ⟨Nat.le_add_left 1 _, rfl⟩, ?_⟩
    rw [takeCount, if_neg (by omega), Int.toNat_natCast]
    exact (apply_takeMany_eq_ok_iff hfits.tail).mpr
      ⟨taken.reverse, rest, by simp, rfl, by simp, rfl⟩

/-! ## Matching in order -/

/-- Each signature has a key of its own, and the keys stand in the order of the signatures. -/
def Matches (valid : Bytes → Bytes → Bool) (signatures keys : List Bytes) : Prop :=
  ∃ chosen, chosen.Sublist keys ∧
    List.Forall₂ (fun signature key => valid signature key = true) signatures chosen

variable {valid : Bytes → Bytes → Bool} {signature key : Bytes} {signatures keys : List Bytes}

theorem matches_nil : Matches valid [] keys := ⟨[], List.nil_sublist _, .nil⟩

theorem Matches.length_le (h : Matches valid signatures keys) :
    signatures.length ≤ keys.length := by
  obtain ⟨chosen, hsublist, hvalid⟩ := h
  rw [hvalid.length_eq]
  exact hsublist.length_le

/-- **A key may go to the first signature** that it fits: any other way to give the keys away can
be changed to this one. -/
theorem matches_cons_of_valid (h : valid signature key = true) :
    Matches valid (signature :: signatures) (key :: keys) ↔ Matches valid signatures keys := by
  constructor
  · rintro ⟨chosen, hsublist, hvalid⟩
    obtain ⟨first, others, -, hothers, rfl⟩ := List.forall₂_cons_left_iff.mp hvalid
    -- the first key of the choice lies at `key` or behind it, so the others lie behind `key`
    exact ⟨others, hsublist.tail, hothers⟩
  · rintro ⟨chosen, hsublist, hvalid⟩
    exact ⟨key :: chosen, hsublist.cons_cons key, .cons h hvalid⟩

theorem matches_cons_of_not_valid (h : valid signature key = false) :
    Matches valid (signature :: signatures) (key :: keys) ↔
      Matches valid (signature :: signatures) keys := by
  constructor
  · rintro ⟨chosen, hsublist, hvalid⟩
    obtain ⟨first, others, hfirst, hothers, rfl⟩ := List.forall₂_cons_left_iff.mp hvalid
    cases hsublist with
    | cons _ hsublist => exact ⟨first :: others, hsublist, hvalid⟩
    | cons_cons _ hsublist =>
      rw [h] at hfirst
      cases hfirst
  · rintro ⟨chosen, hsublist, hvalid⟩
    exact ⟨chosen, hsublist.cons key, hvalid⟩

/-- **Keys in order** are keys at growing places. -/
theorem matches_iff_strictMono :
    Matches valid signatures keys ↔
      ∃ f : Fin signatures.length → Fin keys.length, StrictMono f ∧
        ∀ j, valid (signatures.get j) (keys.get (f j)) = true := by
  constructor
  · rintro ⟨chosen, hsublist, hvalid⟩
    obtain ⟨f, hf⟩ := List.sublist_iff_exists_fin_orderEmbedding_get_eq.mp hsublist
    obtain ⟨hlength, hget⟩ := List.forall₂_iff_get.mp hvalid
    refine ⟨fun j => f (j.cast hlength), fun a b hab => f.strictMono hab, fun j => ?_⟩
    rw [← hf]
    exact hget j j.2 (hlength ▸ j.2)
  · rintro ⟨f, hmono, hvalid⟩
    refine ⟨List.ofFn fun j => keys.get (f j), ?_, ?_⟩
    · let place : Fin (List.ofFn fun j => keys.get (f j)).length ↪o Fin keys.length :=
        OrderEmbedding.ofStrictMono (fun j => f (j.cast List.length_ofFn)) fun a b hab => hmono hab
      refine List.sublist_iff_exists_fin_orderEmbedding_get_eq.mpr ⟨place, fun j => ?_⟩
      exact List.get_ofFn _ _
    · refine List.forall₂_iff_get.mpr ⟨by simp, fun i hi _ => ?_⟩
      simpa using hvalid ⟨i, hi⟩

/-- **The search decides** whether the signatures that are left find keys in order among those that
are left. -/
theorem apply_matchFrom {check : Bytes → Bytes → Action Bool}
    (hcheck : ∀ signature key (m : Machine), ∃ log,
      (check signature key).apply m = (.ok (valid signature key), ⟨m.stack, log, m.ints⟩))
    (signatures keys : List Bytes) (i j : Nat) (m : Machine) :
    ∃ answer log,
      (matchFrom check signatures keys i j).apply m = (.ok answer, ⟨m.stack, log, m.ints⟩) ∧
      (answer = true ↔ Matches valid (signatures.drop i) (keys.drop j)) := by
  fun_induction matchFrom check signatures keys i j generalizing m with
  | case1 i j hi =>
    refine ⟨true, m.log, rfl, iff_of_true rfl ?_⟩
    rw [List.drop_of_length_le hi]
    exact matches_nil
  | case2 i j hi hj =>
    refine ⟨false, m.log, rfl, iff_of_false Bool.false_ne_true fun h => ?_⟩
    have hle := h.length_le
    rw [List.length_drop, List.length_drop] at hle
    omega
  | case3 i j hi hj ih1 ih2 =>
    have hi' : i < signatures.length := by omega
    have hj' : j < keys.length := by omega
    obtain ⟨log, hlog⟩ := hcheck signatures[i] keys[j] m
    rw [element_of_lt hi', element_of_lt hj', pure_bind, pure_bind, apply_bind, hlog,
      List.drop_eq_getElem_cons hi', List.drop_eq_getElem_cons hj']
    cases hvalid : valid signatures[i] keys[j] with
    | true =>
      obtain ⟨answer, log', hrun, hiff⟩ := ih1 ⟨m.stack, log, m.ints⟩
      exact ⟨answer, log', hrun, hiff.trans (matches_cons_of_valid hvalid).symm⟩
    | false =>
      obtain ⟨answer, log', hrun, hiff⟩ := ih2 ⟨m.stack, log, m.ints⟩
      rw [List.drop_eq_getElem_cons hi'] at hiff
      exact ⟨answer, log', hrun, hiff.trans (matches_cons_of_not_valid hvalid).symm⟩

/-! ## The operation -/

/-- The item gives the length of the list. -/
def Counts (item : Bytes) (xs : List Bytes) : Prop :=
  item.length ≤ 4 ∧ ScriptNumber.decode item = xs.length

/-- The stacks that the operation accepts, bottom first: an item that is not looked at, the
signatures, their count, the keys, and their count. -/
def Laid (items below signatures keys : List Bytes) : Prop :=
  ∃ unused signatureCount keyCount,
    items = below ++ [unused] ++ signatures ++ [signatureCount] ++ keys ++ [keyCount] ∧
      Counts keyCount keys ∧ keys.length ≤ maxKeys ∧
      Counts signatureCount signatures ∧ signatures.length ≤ keys.length

theorem laid_reverse_iff {items below : List Bytes} :
    Laid items.reverse below signatures keys ↔
      ∃ unused signatureCount keyCount,
        items = keyCount :: (keys.reverse ++
          signatureCount :: (signatures.reverse ++ unused :: below.reverse)) ∧
          Counts keyCount keys ∧ keys.length ≤ maxKeys ∧
          Counts signatureCount signatures ∧ signatures.length ≤ keys.length := by
  simp only [Laid, List.reverse_eq_iff, List.reverse_append, List.reverse_cons, List.reverse_nil,
    List.nil_append, List.cons_append, List.append_assoc]

theorem operand_eq_length_iff {item : Bytes} {xs : List Bytes} :
    ScriptNumber.operand item = .ok (xs.length : Int) ↔ Counts item xs :=
  ScriptNumber.operand_eq_ok_iff

variable {env : Environment} {items : List Bytes} {log : Log} {ints : Ints} {m : Machine}

/-- **What the operation takes** from the stack before it searches. -/
theorem apply_checkMultiSig_eq_ok_iff (h : Fits items) :
    (checkMultiSig env).apply ⟨ofItems items, log, ints⟩ = (.ok (), m) ↔
      ∃ below signatures keys, Laid items.reverse below signatures keys ∧
        (matchFrom (check env) signatures keys 0 0 >>= pushBool).apply
          ⟨ofItems below.reverse, log, ints⟩ = (.ok (), m) := by
  have hbounds (most : Nat) (n : Int) : (decide (0 ≤ n) && decide (n ≤ most)) = true → 0 ≤ n := by
    simp +contextual
  simp only [laid_reverse_iff, ← operand_eq_length_iff]
  constructor
  · intro hrun
    obtain ⟨keys, _, htake, hrun⟩ := apply_bind_eq_ok.mp hrun
    obtain ⟨keyCount, rest, rfl, hkeyCount, hkeys, rfl⟩ :=
      (apply_takeCounted_eq_ok_iff (hbounds maxKeys) h).mp htake
    have hrest : Fits rest := h.tail.of_append
    obtain ⟨signatures, _, htake, hrun⟩ := apply_bind_eq_ok.mp hrun
    obtain ⟨signatureCount, rest, rfl, hsignatureCount, hsignatures, rfl⟩ :=
      (apply_takeCounted_eq_ok_iff (hbounds _) hrest).mp htake
    have hrest : Fits rest := hrest.tail.of_append
    obtain ⟨_, _, hpop, hrun⟩ := apply_bind_eq_ok.mp hrun
    obtain ⟨hlength, rfl⟩ := (apply_pop_eq_ok_iff hrest Nat.one_pos).mp hpop
    obtain ⟨unused, below, rfl⟩ := List.exists_cons_of_length_pos hlength
    refine ⟨below.reverse, signatures, keys, ⟨unused, signatureCount, keyCount, ?_, hkeyCount, ?_,
      hsignatureCount, ?_⟩, ?_⟩
    · rw [List.reverse_reverse]
    · simpa using hkeys
    · simpa using hsignatures
    · rw [List.reverse_reverse]
      exact hrun
  · rintro ⟨below, signatures, keys, ⟨unused, signatureCount, keyCount, rfl, hkeyCount, hkeys,
      hsignatureCount, hsignatures⟩, hrun⟩
    have hrest := h.tail.of_append
    refine apply_bind_eq_ok.mpr ⟨keys, _, (apply_takeCounted_eq_ok_iff (hbounds maxKeys) h).mpr
      ⟨keyCount, _, rfl, hkeyCount, by simpa using hkeys, rfl⟩, ?_⟩
    refine apply_bind_eq_ok.mpr ⟨signatures, _, (apply_takeCounted_eq_ok_iff (hbounds _) hrest).mpr
      ⟨signatureCount, _, rfl, hsignatureCount, by simpa using hsignatures, rfl⟩, ?_⟩
    exact apply_bind_eq_ok.mpr ⟨(), _,
      (apply_pop_eq_ok_iff hrest.tail.of_append Nat.one_pos).mpr ⟨Nat.le_add_left 1 _, rfl⟩, hrun⟩

/-- The answer of the search is left on the stack. -/
theorem apply_matchFrom_pushBool
    (hvalid : ∀ signature key, ∃ log, env.check signature key = .ok (valid signature key, log))
    (signatures keys : List Bytes) {unused : Bytes} {items : List Bytes}
    (h : Fits (unused :: items)) (log : Log) (ints : Ints) :
    ∃ answer log', (matchFrom (check env) signatures keys 0 0 >>= pushBool).apply
        ⟨ofItems items, log, ints⟩ =
          (.ok (), ⟨ofItems (truthItem answer :: items), log', ints⟩) ∧
      (answer = true ↔ Matches valid signatures keys) := by
  have hcheck : ∀ signature key (m : Machine), ∃ log,
      (check env signature key).apply m = (.ok (valid signature key), ⟨m.stack, log, m.ints⟩) := by
    intro signature key m
    obtain ⟨log, h⟩ := hvalid signature key
    exact ⟨m.log ++ log, by rw [apply_check, h]⟩
  obtain ⟨answer, log', hmatch, hanswer⟩ :=
    apply_matchFrom hcheck signatures keys 0 0 ⟨ofItems items, log, ints⟩
  exact ⟨answer, log', apply_bind_eq_ok.mpr ⟨answer, _, hmatch,
    apply_pushBool (h.replace (length_truthItem_lt answer)) log' ints⟩, hanswer⟩

/-- Before anything is pushed no int goes wrong, so there is an answer or a fault. -/
theorem answers_or_faults (henv : env.Answers) (h : Fits items) (log : Log) (ints : Ints) :
    (∃ found, ((answer env).apply ⟨ofItems items, log, ints⟩).1 = .ok found) ∨
      ∃ f, ((answer env).apply ⟨ofItems items, log, ints⟩).1 = .error (.fault f) := by
  have hcomposed : Composed env (fun _ => True) True 0 (fun _ => True) (answer env) :=
    composed_answer
  have hends := hcomposed.ends (n := 0) (kept_guarded Ints.guard_pushless henv)
    (m := ⟨ofItems items, log, ints⟩) fun _ => ⟨items, rfl, h⟩
  rcases hrun : (answer env).apply ⟨ofItems items, log, ints⟩ with ⟨(f | e) | found, m⟩ <;>
    rw [hrun] at hends
  · exact Or.inr ⟨f, rfl⟩
  · exact absurd rfl hends
  · exact Or.inl ⟨found, rfl⟩

end Multisig

end SpendScript
