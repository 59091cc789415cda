import Mathlib.Algebra.Group.Nat.Defs
import SpendScript.Proofs.Script.Items
import SpendScript.Proofs.Stateful
import SpendScript.Script.Operation

/-!
# Operations as compositions of calls

Every operation is put together from a few calls on the operand stack, and no operation pushes more
than two items. What each call keeps, every operation keeps.

* `Action.apply_bind` and the other equations of actions;
* `Action.Composed`: compositions of calls, with what they may push;
* `Environment.Admits`: the kinds of items that results belong to;
* `composed_takeTop`, `Multisig.composed_checkMultiSig` and so on: the parts of operations;
* **`Operation.composed_run`**: all operations;
* `Action.Ends`, `Action.Kept`, **`Action.Composed.ends`**: what each call keeps, all keep.
-/

namespace SpendScript

open Stack

/-! ## Equations of actions -/

namespace Action

variable {α β : Type} (m : Machine)

@[simp] theorem apply_pure (a : α) : (pure a : Action α).apply m = (.ok a, m) := rfl

@[simp] theorem apply_bind (x : Action α) (f : α → Action β) :
    (x >>= f).apply m =
      match x.apply m with
      | (.ok a, m') => (f a).apply m'
      | (.error e, m') => (.error e, m') := by
  rcases h : x.apply m with ⟨e | a, m'⟩
  · exact Stateful.apply_bind_of_error h
  · exact Stateful.apply_bind_of_ok h

@[simp] theorem apply_map (f : α → β) (x : Action α) :
    (f <$> x).apply m =
      match x.apply m with
      | (.ok a, m') => (.ok (f a), m')
      | (.error e, m') => (.error e, m') := by
  rw [← bind_pure_comp, apply_bind]
  rfl

@[simp] theorem apply_inspect (look : Stack → Except Interruption α) :
    (inspect look).apply m = (look m.stack, m) := rfl

@[simp] theorem apply_append (item : ByteArray) :
    (append item).apply m =
      (.ok (), ⟨m.stack.append item, m.log, m.ints.and (m.stack.appendInts item)⟩) := rfl

theorem apply_pop (count : Nat) :
    (pop count).apply m =
      match m.stack.drop count with
      | .error f => (.error (.fault f), m)
      | .ok left =>
        match left.trim with
        | .ok stack => (.ok (), ⟨stack, m.log, m.ints.and left.trimInts⟩)
        | .error e => (.error (.access e), ⟨left, m.log, m.ints.and left.trimInts⟩) := rfl

@[simp] theorem apply_check (env : Environment) (signature key : Bytes) :
    (check env signature key).apply m =
      match env.check signature key with
      | .ok (answer, log) => (.ok answer, { m with log := m.log ++ log })
      | .error e => (.error (.access e), m) := rfl

end Action

/-- **Removing items** from a stack of items is refused or leaves the items below them. -/
theorem Action.apply_pop_ofItems {items : List Bytes} {count : Nat}
    (h : (items.drop count).flatten.length < 2 ^ 31) (log : Log) (ints : Ints) :
    (pop count).apply ⟨ofItems items, log, ints⟩ =
      if (ofItems items).size.toInt < count then
        (.error (.fault (.popBeyond count (ofItems items).size.toInt)), ⟨ofItems items, log, ints⟩)
      else (.ok (), ⟨ofItems (items.drop count), log, ints⟩) := by
  have hmade : (dropped items count).trimInts = .exact := (stop_eq (toList_spans_dropped count) h).2
  rw [apply_pop, drop_ofItems]
  by_cases hsize : (ofItems items).size.toInt < count
  · rw [if_pos hsize, if_pos hsize]
  · rw [if_neg hsize, if_neg hsize]
    simp only [trim_dropped h, hmade, Ints.and_exact]

/-! ## Compositions -/

/-- A composition of calls that pushes at most `count` items, all of the kind `W`. What it results
in is as `P` says, provided that the items on the stack are of this kind. It asks how many items
there are only if `D` holds. -/
inductive Action.Composed (env : Environment) (W : Bytes → Prop) (D : Prop) :
    {α : Type} → Nat → (α → Prop) → Action α → Prop
  | pure {α : Type} {P : α → Prop} {a : α} (h : P a) : Composed env W D 0 P (pure a)
  | fault {α : Type} {P : α → Prop} (f : Fault) : Composed env W D 0 P (throw (.fault f))
  | viewTop : Composed env W D 0 (fun item => W (Bytes.ofArray item)) viewTop
  | view (position : Int) : Composed env W D 0 (fun item => W (Bytes.ofArray item)) (view position)
  | size (h : D) : Composed env W D 0 (fun _ => True) size
  | pop (count : Nat) (h : 0 < count) : Composed env W D 0 (fun _ => True) (pop count)
  | append {item : ByteArray} (h : W (Bytes.ofArray item)) :
      Composed env W D 1 (fun _ => True) (append item)
  | check (signature key : Bytes) : Composed env W D 0 (fun _ => True) (check env signature key)
  | bind {α β : Type} {m n : Nat} {P : α → Prop} {Q : β → Prop} {x : Action α} {f : α → Action β}
      (hx : Composed env W D m P x) (hf : ∀ a, P a → Composed env W D n Q (f a)) :
      Composed env W D (m + n) Q (x >>= f)
  | weaken {α : Type} {m n : Nat} {P : α → Prop} {x : Action α} (hx : Composed env W D m P x)
      (h : m ≤ n) : Composed env W D n P x

/-- Digests and numbers of 64 bits are items of the kind `W`. -/
structure Environment.Admits (env : Environment) (W : Bytes → Prop) : Prop where
  digest : ∀ f item, W (env.digest f item)
  number : ∀ v : Int, v.natAbs ≤ 2 ^ 63 → W (ScriptNumber.encode v)

namespace Action

variable {W : Bytes → Prop} {D : Prop} {env : Environment} {α : Type}

theorem composed_top : Composed env W D 0 W top := .bind .viewTop fun _ hitem => .pure hitem

theorem composed_peek (position : Int) : Composed env W D 0 W (peek position) :=
  .bind (.view position) fun _ hitem => .pure hitem

/-- A number is read from an item that is looked at. -/
theorem number_eq_bind (position : Int) :
    number position = (view position >>= fun item =>
      match ScriptNumber.operand (Bytes.ofArray item) with
      | .ok v => pure v
      | .error f => throw (.fault f)) := by
  refine funext fun m => ?_
  change (number position).apply m = Action.apply _ m
  rw [number, apply_inspect, apply_bind, view, apply_inspect, Stack.number]
  cases m.stack.peek position with
  | error e => rfl
  | ok item =>
    change (Except.mapError Interruption.fault (ScriptNumber.operand (Bytes.ofArray item)), m) = _
    dsimp only
    cases ScriptNumber.operand (Bytes.ofArray item) <;> rfl

theorem composed_number (position : Int) :
    Composed env W D 0 (fun _ => True) (number position) := by
  rw [number_eq_bind]
  refine .bind (n := 0) (.view position) fun item _ => ?_
  cases ScriptNumber.operand (Bytes.ofArray item) with
  | ok v => exact .pure trivial
  | error f => exact .fault f

theorem composed_push {item : Bytes} (h : W item) :
    Composed env W D 1 (fun _ => True) (push item) := by
  refine .append ?_
  rwa [Bytes.ofArray_toByteArray]

theorem composed_takeTop : Composed env W D 0 W takeTop :=
  .bind composed_top fun _ hitem => .bind (.pop 1 Nat.one_pos) fun _ _ => .pure hitem

theorem composed_takeTruth : Composed env W D 0 (fun _ => True) takeTruth :=
  .bind composed_takeTop fun _ _ => .pure trivial

theorem composed_takeMany (count : Nat) (above : List Bytes) :
    Composed env W D 0 (fun _ => True) (takeMany count above) := by
  induction count generalizing above with
  | zero => exact .pure trivial
  | succ count ih => exact .bind composed_takeTop fun item _ => ih (item :: above)

theorem composed_takeCount {count : Int} (h : 0 ≤ count) :
    Composed env W D 0 (fun _ => True) (takeCount count) := by
  rw [takeCount, if_neg (by omega)]
  exact composed_takeMany _ _

theorem element_of_lt {xs : List α} {index : Nat} (h : index < xs.length) :
    element xs index = pure xs[index] := by
  rw [element, elementAt_eq_ok h]

theorem composed_pushInt (henv : env.Admits W) {v : Int} (h : v.natAbs ≤ 2 ^ 63) :
    Composed env W D 1 (fun _ => True) (pushInt v) :=
  composed_push (henv.number v h)

theorem composed_pushBool (henv : env.Admits W) (flag : Bool) :
    Composed env W D 1 (fun _ => True) (pushBool flag) := by
  cases flag with
  | true => exact composed_push (henv.number 1 (by decide))
  | false => exact composed_push (henv.number 0 (by decide))

theorem composed_pushInt64 (henv : env.Admits W) (v : Int64) :
    Composed env W D 1 (fun _ => True) (pushInt v.toInt) := by
  have hle := v.toInt_lt
  have hge := v.le_toInt
  exact composed_pushInt henv (by omega)

theorem composed_pushInt32 (henv : env.Admits W) (v : Int32) :
    Composed env W D 1 (fun _ => True) (pushInt v.toInt) := by
  have hle := v.toInt_lt
  have hge := v.le_toInt
  exact composed_pushInt henv (by omega)

end Action

open SpendScript.Action

variable {W : Bytes → Prop} {D : Prop} {env : Environment}

/-! ## Parts of operations -/

theorem UnaryFunction.composed_run (henv : env.Admits W) (f : UnaryFunction) :
    Composed env W D 1 (fun _ => True) f.run :=
  .bind (composed_number 0) fun _ _ =>
    .bind (.pop 1 Nat.one_pos) fun _ _ => composed_pushInt64 henv _

theorem BinaryFunction.composed_run (henv : env.Admits W) (f : BinaryFunction) :
    Composed env W D 1 (fun _ => True) f.run :=
  .bind (composed_number 1) fun _ _ => .bind (composed_number 0) fun _ _ =>
    .bind (.pop 2 Nat.two_pos) fun _ _ => composed_pushInt64 henv _

theorem Shuffle.composed_run (henv : env.Admits W) {move : Shuffle} (hdepth : move = .depth → D) :
    Composed env W D 2 (fun _ => True) move.run := by
  cases move with
  | dropTwo => exact .weaken (.pop 2 Nat.two_pos) (by decide)
  | dupTwo =>
    exact .bind (.view 1) fun _ ha => .bind (.view 0) fun _ hb =>
      .bind (.append ha) fun _ _ => .append hb
  | depth =>
    exact .weaken (.bind (.size (hdepth rfl)) fun _ _ => composed_pushInt32 henv _) (by decide)
  | drop => exact .weaken (.pop 1 Nat.one_pos) (by decide)
  | dup => exact .weaken (.bind .viewTop fun _ h => .append h) (by decide)
  | nip =>
    exact .weaken (.bind composed_takeTop fun _ h =>
      .bind (.pop 1 Nat.one_pos) fun _ _ => composed_push h) (by decide)
  | «over» => exact .weaken (.bind (.view 1) fun _ h => .append h) (by decide)
  | swap =>
    exact .bind composed_takeTop fun _ hupper => .bind composed_takeTop fun _ hlower =>
      .bind (composed_push hupper) fun _ _ => composed_push hlower
  | size => exact .weaken (.bind .viewTop fun _ _ => composed_pushInt32 henv _) (by decide)

namespace Multisig

/-- No signature and no key is looked for beyond the end of its list: where the search goes on,
there are as many keys left as signatures at least. -/
theorem composed_matchFrom (signatures keys : List Bytes) (i j : Nat) :
    Composed env W D 0 (fun _ => True) (matchFrom (Action.check env) signatures keys i j) := by
  fun_induction matchFrom (Action.check env) signatures keys i j with
  | case1 => exact .pure trivial
  | case2 => exact .pure trivial
  | case3 i j hi hj ih1 ih2 =>
    rw [element_of_lt (by omega), element_of_lt (by omega), pure_bind, pure_bind]
    refine .bind (n := 0) (.check _ _) fun found _ => ?_
    cases found with
    | true => exact ih1
    | false => exact ih2

/-- Room is made for counts only that were found valid, so it is enough that these are not
negative. -/
theorem composed_takeCounted {valid : Int → Bool} (hvalid : ∀ n, valid n = true → 0 ≤ n)
    (refusal : Int → Fault) : Composed env W D 0 (fun _ => True) (takeCounted valid refusal) := by
  refine .bind (n := 0) (composed_number 0) fun count _ => ?_
  cases h : valid count with
  | true => exact .bind (.pop 1 Nat.one_pos) fun _ _ => composed_takeCount (hvalid count h)
  | false => exact .bind (n := 0) (.fault (P := fun _ => False) (refusal count)) fun _ h => h.elim

/-- What is done before the answer is pushed. -/
def answer (env : Environment) : Action Bool := do
  let keys ← takeCounted (fun n => 0 ≤ n && n ≤ maxKeys) .publicKeyCount
  let signatures ← takeCounted (fun m => 0 ≤ m && m ≤ keys.length)
    fun m => .signatureCount m keys.length
  Action.pop 1
  matchFrom (Action.check env) signatures keys 0 0

theorem checkMultiSig_eq : checkMultiSig env = answer env >>= pushBool := by
  simp only [checkMultiSig, answer, bind_assoc]

theorem composed_answer : Composed env W D 0 (fun _ => True) (answer env) :=
  .bind (composed_takeCounted (by simp +contextual) _) fun _ _ =>
    .bind (composed_takeCounted (by simp +contextual) _) fun _ _ =>
      .bind (.pop 1 Nat.one_pos) fun _ _ => composed_matchFrom _ _ 0 0

theorem composed_checkMultiSig (henv : env.Admits W) :
    Composed env W D 1 (fun _ => True) (checkMultiSig env) := by
  rw [checkMultiSig_eq]
  exact .bind composed_answer fun found _ => composed_pushBool henv found

end Multisig

/-! ## Operations -/

namespace Opcode

theorem composed_runEqual (henv : env.Admits W) : Composed env W D 1 (fun _ => True) runEqual :=
  .bind (composed_peek 1) fun _ _ => .bind (composed_peek 0) fun _ _ =>
    .bind (.pop 2 Nat.two_pos) fun _ _ => composed_pushBool henv _

theorem composed_runCheckSig (henv : env.Admits W) :
    Composed env W D 1 (fun _ => True) (runCheckSig env) :=
  .bind composed_takeTop fun _ _ => .bind composed_takeTop fun _ _ =>
    .bind (.check _ _) fun _ _ => composed_pushBool henv _

/-- What is done before an operation goes on, or before it verifies. -/
theorem composed_before {x : Action Unit} {y : Action Bool} {n : Nat} (hn : n ≤ 2)
    (hx : Composed env W D n (fun _ => True) x) (hy : Composed env W D 0 (fun _ => True) y) :
    Composed env W D 2 (fun _ => True) (x >>= fun _ => y) :=
  .weaken (.bind hx fun _ _ => hy) (by omega)

theorem composed_run (henv : env.Admits W) {op : Opcode} (hdepth : op = .shuffle .depth → D) :
    Composed env W D 2 (fun _ => True) (op.run env) := by
  have hdone : Composed env W D 0 (fun _ => True) (pure true : Action Bool) := .pure trivial
  have hverify : Composed env W D 0 (fun _ => True) takeTruth := composed_takeTruth
  cases op with
  | immediate v =>
    have hv := v.property
    exact composed_before (by decide) (composed_pushInt henv (by omega)) hdone
  | nop => exact .weaken hdone (by decide)
  | verify => exact .weaken hverify (by decide)
  | unspendable => exact .weaken (.pure trivial) (by decide)
  | shuffle move =>
    exact composed_before (Nat.le_refl 2) (move.composed_run henv fun h => hdepth (h ▸ rfl)) hdone
  | equal => exact composed_before (by decide) (composed_runEqual henv) hdone
  | equalVerify => exact composed_before (by decide) (composed_runEqual henv) hverify
  | unary f => exact composed_before (by decide) (f.composed_run henv) hdone
  | binary f => exact composed_before (by decide) (f.composed_run henv) hdone
  | numEqualVerify => exact composed_before (by decide) (BinaryFunction.composed_run henv _) hverify
  | digest f =>
    exact .weaken (.bind composed_top fun _ _ => .bind (.pop 1 Nat.one_pos) fun _ _ =>
      .bind (composed_push (henv.digest f _)) fun _ _ => hdone) (by decide)
  | codeSeparator => exact .weaken hdone (by decide)
  | checkSig => exact composed_before (by decide) (composed_runCheckSig henv) hdone
  | checkSigVerify => exact composed_before (by decide) (composed_runCheckSig henv) hverify
  | checkMultiSig => exact composed_before (by decide) (Multisig.composed_checkMultiSig henv) hdone
  | checkMultiSigVerify =>
    exact composed_before (by decide) (Multisig.composed_checkMultiSig henv) hverify

end Opcode

/-- **Every operation is a composition of calls** that pushes two items at most. Only one operation
asks how many items there are. -/
theorem Operation.composed_run (henv : env.Admits W) {op : Operation}
    (hdata : ∀ data, op = .push data → W data) (hdepth : op = .code (.shuffle .depth) → D) :
    Composed env W D 2 (fun _ => True) (op.run env) := by
  cases op with
  | push data =>
    exact Opcode.composed_before (by decide) (composed_push (hdata data rfl)) (.pure trivial)
  | code op => exact op.composed_run henv fun h => hdepth (h ▸ rfl)
  | fail => exact .weaken (.pure trivial) (by decide)

/-- For any items and any digests. -/
theorem Operation.composed_any (env : Environment) {op : Operation}
    (hdepth : op = .code (.shuffle .depth) → D) :
    Composed env (fun _ => True) D 2 (fun _ => True) (op.run env) :=
  composed_run ⟨fun _ _ => trivial, fun _ _ => trivial⟩ (fun _ _ => trivial) hdepth

/-! ## What calls keep -/

namespace Action

variable {α : Type}

/-- How a computation ends: `I` holds of the machine after a value or a fault, the value is as `P`
says, and `E` holds after an error from outside. -/
def Ends (I E : Machine → Prop) (P : α → Prop) : Except Interruption α × Machine → Prop
  | (.ok a, m) => P a ∧ I m
  | (.error (.fault _), m) => I m
  | (.error (.access _), m) => E m

/-- Every call keeps `I`, which may depend on how many items have been pushed, unless there is an
error from outside, and then `E` holds. -/
structure Kept (env : Environment) (W : Bytes → Prop) (I E : Nat → Machine → Prop) : Prop where
  mono : ∀ {n n' : Nat} {m : Machine}, n ≤ n' → I n m → I n' m
  mono_error : ∀ {n n' : Nat} {m : Machine}, n ≤ n' → E n m → E n' m
  viewTop : ∀ {n : Nat} {m : Machine}, I n m →
    Ends (I n) (E n) (fun item => W (Bytes.ofArray item)) (viewTop.apply m)
  view : ∀ {n : Nat} {m : Machine} (position : Int), I n m →
    Ends (I n) (E n) (fun item => W (Bytes.ofArray item)) ((view position).apply m)
  pop : ∀ {n count : Nat} {m : Machine}, 0 < count → I n m →
    Ends (I n) (E n) (fun _ => True) ((pop count).apply m)
  append : ∀ {n : Nat} {m : Machine} {item : ByteArray}, W (Bytes.ofArray item) → I n m →
    I (n + 1) ((append item).apply m).2
  check : ∀ {n : Nat} {m : Machine} (signature key : Bytes), I n m →
    Ends (I n) (E n) (fun _ => True) ((check env signature key).apply m)

variable {I E : Nat → Machine → Prop} {count n : Nat} {P : α → Prop} {x : Action α} {m : Machine}

theorem Kept.ends_mono (hk : Kept env W I E) {n n' : Nat} (hn : n ≤ n')
    {out : Except Interruption α × Machine} (h : Ends (I n) (E n) P out) :
    Ends (I n') (E n') P out := by
  match out, h with
  | (.ok a, m), ⟨ha, hm⟩ => exact ⟨ha, hk.mono hn hm⟩
  | (.error (.fault f), m), hm => exact hk.mono hn hm
  | (.error (.access e), m), hm => exact hk.mono_error hn hm

/-- **What every call keeps, a composition keeps**, with the items that it may push counted in. -/
theorem Composed.ends (hx : Composed env W D count P x) (hk : Kept env W I E) (hm : I n m) :
    Ends (I (n + count)) (E (n + count)) P (x.apply m) := by
  induction hx generalizing n m with
  | pure h => exact ⟨h, hm⟩
  | fault f => exact hm
  | viewTop => exact hk.viewTop hm
  | view position => exact hk.view position hm
  | size h => exact ⟨trivial, hm⟩
  | pop count h => exact hk.pop h hm
  | append h => exact ⟨trivial, hk.append h hm⟩
  | check signature key => exact hk.check signature key hm
  | @bind _ _ count count' _ _ x f hx hf ihx ihf =>
    have hfirst := ihx hm
    rw [apply_bind]
    rcases h : x.apply m with ⟨(f | e) | a, m'⟩ <;> rw [h] at hfirst
    · exact hk.mono (by omega) hfirst
    · exact hk.mono_error (by omega) hfirst
    · rw [← Nat.add_assoc]
      exact ihf a hfirst.1 hfirst.2
  | weaken hx h ih => exact hk.ends_mono (by omega) (ih hm)

theorem kept_trivial (env : Environment) :
    Kept env (fun _ => True) (fun _ _ => True) (fun _ _ => True) := by
  have hends {β : Type} (out : Except Interruption β × Machine) :
      Ends (fun _ => True) (fun _ => True) (fun _ => True) out := by
    match out with
    | (.ok a, m) => exact ⟨trivial, trivial⟩
    | (.error (.fault f), m) => exact trivial
    | (.error (.access e), m) => exact trivial
  exact
    { mono := fun _ _ => trivial
      mono_error := fun _ _ => trivial
      viewTop := fun _ => hends _
      view := fun _ _ => hends _
      pop := fun _ _ => hends _
      append := fun _ _ => trivial
      check := fun _ _ _ => hends _ }

/-- A composition results in what it says. -/
theorem Composed.result (hx : Composed env (fun _ => True) D count P x) {a : α}
    (h : (x.apply m).1 = .ok a) : P a := by
  have hends := hx.ends (n := 0) (m := m) (kept_trivial env) trivial
  rcases hout : x.apply m with ⟨r, m'⟩
  rw [hout] at h hends
  cases h
  exact hends.1

end Action

end SpendScript
