import SpendScript.Proofs.Script.Composition
import SpendScript.Script.Run

/-!
# What operations and programs come to

An operation succeeds on a stack and leaves another one, or it does not succeed. As long as the ints
that the stack is kept by are exact and the environment answers every question, nothing else can
happen. Whether a program is accepted is known from the stacks alone: observers, places and logs
have no part in it.

* `Ints.Guard`, **`Operation.guarded_run`**: exact ints keep errors out;
* **`Operation.succeeds_or_faults`**: the outcomes of an operation;
* `Operation.stackAfter`, `Program.stackAfter`: the stack after success;
* `Program.runFrom`, `Program.runFrom_append`, **`Program.run_eq_runFrom`**: runs, operation by
  operation;
* **`Program.accepts_iff`**: acceptance by stacks;
* **`Program.guarded_runFrom`**, `guarded_stackAfter`, `exact_stackAfter`: runs with exact ints.
-/

namespace SpendScript

open Stack

/-! ## Errors from outside -/

/-- The environment answers every question about a signature. -/
def Environment.Answers (env : Environment) : Prop :=
  ∀ signature key, ∃ answer, env.check signature key = .ok answer

/-- As long as `up` holds of the number of items that have been pushed and of the ints that have
been made, what is on the stack is as `F` says, and its places are exact. -/
structure Ints.Guard (up : Nat → Ints → Prop) (F : List Bytes → Prop) : Prop where
  mono : ∀ {n n' : Nat} {ints : Ints}, n ≤ n' → up n' ints → up n ints
  of_and : ∀ {n : Nat} {a b : Ints}, up n (a.and b) → up n a ∧ up n b
  placed : ∀ {items : List Bytes}, F items → Placed items
  drop : ∀ {items : List Bytes} (count : Nat), F items → F (items.drop count)
  append : ∀ {n : Nat} {ints : Ints} {items : List Bytes} {item : Bytes},
    up (n + 1) (ints.and ((ofItems items).appendInts item.toByteArray)) → F (item :: items)

/-- Places stay exact as long as they have been. -/
theorem Ints.guard_places : Guard (fun _ ints => ints.places = true) Placed where
  mono _ h := h
  of_and h := Bool.and_eq_true_iff.mp h
  placed h := h
  drop count h := h.drop count
  append h := (places_appendInts _).mp (Bool.and_eq_true_iff.mp h).2

theorem Ints.guard_exact : Guard (fun _ ints => ints = .exact) Fits where
  mono _ h := h
  of_and h := and_eq_exact_iff.mp h
  placed h := h.placed
  drop count h := h.drop count
  append h := (appendInts_eq_exact _).mp (and_eq_exact_iff.mp h).2

/-- Where nothing has been pushed, all ints are exact that were so before. -/
theorem Ints.guard_pushless : Guard (fun n _ => n = 0) Fits where
  mono hn h := Nat.eq_zero_of_le_zero (h ▸ hn)
  of_and h := ⟨h, h⟩
  placed h := h.placed
  drop count h := h.drop count
  append h := absurd h (Nat.succ_ne_zero _)

namespace Action

variable {α : Type} {env : Environment} {up : Nat → Ints → Prop} {F : List Bytes → Prop}

/-- The stack is one of items, as long as the guard is up. -/
def Guarded (up : Nat → Ints → Prop) (F : List Bytes → Prop) (n : Nat) (m : Machine) : Prop :=
  up n m.ints → ∃ items, m.stack = ofItems items ∧ F items

/-- A look at a stack of items that finds something or is refused. -/
theorem ends_inspect {look : Stack → Except Interruption α} {n : Nat} {m : Machine}
    (hm : Guarded up F n m)
    (hlook : ∀ items e, F items → look (ofItems items) ≠ .error (.access e)) :
    Ends (Guarded up F n) (fun m => ¬ up n m.ints) (fun _ => True) ((inspect look).apply m) := by
  rw [apply_inspect]
  rcases h : look m.stack with (f | e) | a
  · exact hm
  · intro hup
    obtain ⟨items, hstack, hitems⟩ := hm hup
    exact hlook items e hitems (hstack ▸ h)
  · exact ⟨trivial, hm⟩

/-- **Calls keep a stack one of items**, and errors out, as long as the guard is up. -/
theorem kept_guarded (hg : Ints.Guard up F) (henv : env.Answers) :
    Kept env (fun _ => True) (Guarded up F) (fun n m => ¬ up n m.ints) where
  mono hn h hup := h (hg.mono hn hup)
  mono_error hn h hup := h (hg.mono hn hup)
  viewTop hm := ends_inspect hm fun _ e hitems => top_ne_access (hg.placed hitems) e
  view position hm := ends_inspect hm fun _ e hitems => peek_ne_access (hg.placed hitems) position e
  pop {n count m} hcount hm := by
    obtain ⟨stack, log, ints⟩ := m
    by_cases hup : up n ints
    · obtain ⟨items, rfl, hitems⟩ := hm hup
      rw [apply_pop_ofItems ((hg.placed hitems).length_flatten_drop_lt hcount)]
      split
      · exact hm
      · exact ⟨trivial, fun _ => ⟨_, rfl, hg.drop count hitems⟩⟩
    · -- the guard was down before, so nothing is asked
      have hdown (made : Ints) : ¬ up n (ints.and made) := fun h => hup (hg.of_and h).1
      rw [apply_pop]
      cases stack.drop count with
      | error f => exact hm
      | ok left =>
        dsimp only
        cases left.trim with
        | ok s => exact ⟨trivial, fun h => absurd h (hdown _)⟩
        | error e => exact hdown _
  append {n m item} _ hm := by
    intro hup
    obtain ⟨items, hstack, -⟩ := hm (hg.mono (Nat.le_succ n) (hg.of_and hup).1)
    rw [apply_append, hstack, ← Bytes.toByteArray_ofArray item] at hup ⊢
    exact ⟨Bytes.ofArray item :: items, append_ofItems _ _, hg.append hup⟩
  check {n m} signature key hm := by
    obtain ⟨⟨answer, log⟩, h⟩ := henv signature key
    rw [apply_check, h]
    exact ⟨trivial, hm⟩

end Action

section

variable {env : Environment} {flag : Ints → Prop} {F : List Bytes → Prop}

/-- **No operation brings in an error of its own** as long as the ints that it makes are exact: only
a question that the environment does not answer could. -/
theorem Operation.guarded_run (hg : Ints.Guard (fun _ => flag) F) (henv : env.Answers)
    (op : Operation) {m : Machine} (hm : flag m.ints → ∃ items, m.stack = ofItems items ∧ F items) :
    Action.Ends (fun m => flag m.ints → ∃ items, m.stack = ofItems items ∧ F items)
      (fun m => ¬ flag m.ints) (fun _ => True) ((op.run env).apply m) :=
  (op.composed_any env fun _ => trivial).ends (n := 0) (Action.kept_guarded hg henv) hm

theorem Fault.error_mem (f : Fault) :
    f.error ∈ [ScriptError.stackUnderflow, .numberOverflow, .invalidPubkeyCount,
      .invalidSignatureCount] := by
  cases f <;> simp [error]

/-- **An operation succeeds, fails, or is at fault** on a stack in which items are laid out, if the
places that it makes are exact. -/
theorem Operation.succeeds_or_faults (henv : env.Answers) (op : Operation) {m : Machine}
    {items : List Bytes} (hm : m.stack.LaidOut items)
    (hafter : ((op.run env).apply m).2.ints.places = true) :
    (∃ ok, ((op.run env).apply m).1 = .ok ok) ∨
      ∃ f : Fault, ((op.run env).apply m).1 = .error (.fault f) ∧
        f.error ∈ [ScriptError.stackUnderflow, .numberOverflow, .invalidPubkeyCount,
          .invalidSignatureCount] := by
  have hends := op.guarded_run Ints.guard_places henv (m := m) fun _ => ⟨_, laidOut_iff.mp hm⟩
  rcases h : (op.run env).apply m with ⟨(f | e) | ok, m'⟩
  · exact Or.inr ⟨f, rfl, f.error_mem⟩
  · rw [h] at hends hafter
    exact absurd hafter hends
  · exact Or.inl ⟨ok, rfl⟩

end

/-! ## The stack after success -/

theorem mapError_eq_ok_iff {ε ε' α : Type} {f : ε → ε'} {x : Except ε α} {a : α} :
    x.mapError f = .ok a ↔ x = .ok a := by
  cases x with
  | error e => exact iff_of_false nofun nofun
  | ok b => exact ⟨fun h => congrArg Except.ok (Except.ok.inj h), fun h => h ▸ rfl⟩

/-- The stack after an operation, if it succeeds. -/
def Operation.stackAfter (env : Environment) (op : Operation) (s : Stack) : Option Stack :=
  match (op.run env).apply (.on s) with
  | (.ok true, m) => some m.stack
  | _ => none

/-- What the end of an operation means for the run: a fault is a failure. -/
def settle : Except Interruption Bool → Except AccessError Bool
  | .ok ok => .ok ok
  | .error (.fault _) => .ok false
  | .error (.access e) => .error e

theorem settle_eq_true_iff {outcome : Except Interruption Bool} :
    settle outcome = .ok true ↔ outcome = .ok true := by
  rcases outcome with (f | e) | ok
  · exact iff_of_false nofun nofun
  · exact iff_of_false nofun nofun
  · exact ⟨fun h => congrArg Except.ok (Except.ok.inj h), fun h => h ▸ rfl⟩

namespace Operation

variable (env : Environment) (index : Nat) (op : Operation) (s : Stack)

/-- A failure is logged; it changes nothing else. -/
theorem attempt_eq : ∃ log, op.attempt env index s =
    (settle ((op.run env).apply (.on s)).1, { ((op.run env).apply (.on s)).2 with log }) := by
  rw [attempt]
  rcases (op.run env).apply (.on s) with ⟨(f | e) | (_ | _), m⟩ <;> exact ⟨_, rfl⟩

theorem attempt_fst : (op.attempt env index s).1 = settle ((op.run env).apply (.on s)).1 := by
  obtain ⟨log, h⟩ := op.attempt_eq env index s
  rw [h]

theorem stack_attempt :
    (op.attempt env index s).2.stack = ((op.run env).apply (.on s)).2.stack := by
  obtain ⟨log, h⟩ := op.attempt_eq env index s
  rw [h]

theorem ints_attempt :
    (op.attempt env index s).2.ints = ((op.run env).apply (.on s)).2.ints := by
  obtain ⟨log, h⟩ := op.attempt_eq env index s
  rw [h]

theorem stackAfter_eq_attempt : op.stackAfter env s =
    match op.attempt env index s with
    | (.ok true, m) => some m.stack
    | _ => none := by
  rw [attempt, stackAfter]
  rcases (op.run env).apply (.on s) with ⟨(f | e) | (_ | _), m⟩ <;> rfl

end Operation

/-- The end of a run is one more operation, the check that the topmost item counts as true. -/
theorem Program.finish_eq (s : Stack) : ∃ log, finish s =
    (settle (Action.takeTruth.apply (.on s)).1,
      { (Action.takeTruth.apply (.on s)).2 with log }) := by
  rw [finish]
  rcases Action.takeTruth.apply (.on s) with ⟨(f | e) | ok, m⟩ <;> exact ⟨_, rfl⟩

namespace Program

variable (env : Environment)

/-- The stack after operations, if they all succeed. -/
def stackAfter : List Operation → Stack → Option Stack
  | [], s => some s
  | op :: ops, s => (op.stackAfter env s).bind (stackAfter ops)

@[simp] theorem stackAfter_nil (s : Stack) : stackAfter env [] s = some s := rfl

@[simp] theorem stackAfter_cons (op : Operation) (ops : List Operation) (s : Stack) :
    stackAfter env (op :: ops) s = (op.stackAfter env s).bind (stackAfter env ops) := rfl

theorem stackAfter_append (a b : List Operation) (s : Stack) :
    stackAfter env (a ++ b) s = (stackAfter env a s).bind (stackAfter env b) := by
  induction a generalizing s with
  | nil => rfl
  | cons op a ih =>
    rw [List.cons_append, stackAfter_cons, stackAfter_cons, Option.bind_assoc]
    exact congrArg _ (funext ih)

/-! ## Runs -/

variable {α : Type} (observe : Step → α)

/-- Runs operations, the first of which has place `index`, on a stack. -/
def runFrom : Nat → List Operation → Stack → Run α
  | _, [], s =>
    let (verdict, m) := finish s
    ⟨[], verdict, m.log, m.ints⟩
  | index, op :: ops, s =>
    match op.attempt env index s with
    | (.error e, m) => ⟨[], .error e, m.log, m.ints⟩
    | (.ok ok, m) =>
      let shown := observe ⟨index, op, ok, m.stack⟩
      if ok then
        let rest := runFrom (index + 1) ops m.stack
        ⟨shown :: rest.observations, rest.verdict, m.log ++ rest.log, m.ints.and rest.ints⟩
      else ⟨[shown], .ok false, m.log, m.ints⟩

/-- A run behind another one is shown, logged and recorded after it. -/
theorem runBehind_eq (done : List α) (log : Log) (ints : Ints) (index : Nat)
    (ops : List Operation) (s : Stack) :
    runBehind env observe done log ints index ops s =
      let rest := runFrom env observe index ops s
      ⟨done.reverse ++ rest.observations, rest.verdict, log.reverse ++ rest.log,
        ints.and rest.ints⟩ := by
  induction ops generalizing done log ints index s with
  | nil => simp [runBehind, runFrom]
  | cons op ops ih =>
    rw [runBehind, runFrom]
    rcases op.attempt env index s with ⟨e | (_ | _), m⟩
    · simp
    · simp
    · simp [ih, Ints.and_assoc]

/-- **After operations that succeed** a run goes on as the rest of it runs on its own. -/
theorem runFrom_append {before : List Operation} {s s' : Stack}
    (hbefore : stackAfter env before s = some s') (index : Nat) (after : List Operation) :
    ∃ (shown : List α) (log : Log) (ints : Ints), shown.length = before.length ∧
      runFrom env observe index (before ++ after) s =
        let rest := runFrom env observe (index + before.length) after s'
        ⟨shown ++ rest.observations, rest.verdict, log ++ rest.log, ints.and rest.ints⟩ := by
  induction before generalizing index s with
  | nil =>
    cases hbefore
    exact ⟨[], [], .exact, rfl, rfl⟩
  | cons op before ih =>
    rw [stackAfter_cons, op.stackAfter_eq_attempt env index] at hbefore
    rw [List.cons_append, runFrom]
    rcases hrun : op.attempt env index s with ⟨e | (_ | _), m⟩ <;> rw [hrun] at hbefore
    · cases hbefore
    · cases hbefore
    · obtain ⟨shown, log, ints, hlength, hrest⟩ := ih hbefore (index + 1)
      refine ⟨observe ⟨index, op, true, m.stack⟩ :: shown, m.log ++ log, m.ints.and ints,
        congrArg (· + 1) hlength, ?_⟩
      rw [List.length_cons, Nat.add_comm before.length, ← Nat.add_assoc]
      simp [hrest, Ints.and_assoc]

/-- What the first operation makes of ints is recorded. -/
theorem exists_ints_runFrom_cons (index : Nat) (op : Operation) (ops : List Operation) (s : Stack) :
    ∃ rest, (runFrom env observe index (op :: ops) s).ints =
      ((op.run env).apply (.on s)).2.ints.and rest := by
  rw [runFrom, ← op.ints_attempt env index]
  rcases op.attempt env index s with ⟨e | (_ | _), m⟩
  · exact ⟨.exact, (Ints.and_exact _).symm⟩
  · exact ⟨.exact, (Ints.and_exact _).symm⟩
  · exact ⟨_, rfl⟩

theorem run_eq_runFrom (program : Program) :
    program.run env observe = runFrom env observe 0 program.operations Stack.empty := by
  rw [run, runBehind_eq]
  rfl

/-- Operations that all succeed on the empty stack and leave an item on top that counts as true. -/
def Accepts (ops : List Operation) : Prop :=
  ∃ stack, stackAfter env ops Stack.empty = some stack ∧ (finish stack).1 = .ok true

variable {env observe}

theorem verdict_runFrom_eq_true_iff (index : Nat) (ops : List Operation) (s : Stack) :
    (runFrom env observe index ops s).verdict = .ok true ↔
      ∃ s', stackAfter env ops s = some s' ∧ (finish s').1 = .ok true := by
  induction ops generalizing index s with
  | nil => simp [runFrom]
  | cons op ops ih =>
    rw [runFrom, stackAfter_cons, op.stackAfter_eq_attempt env index]
    rcases op.attempt env index s with ⟨e | (_ | _), m⟩
    · simp
    · simp
    · exact ih (index + 1) m.stack

/-- **Acceptance by stacks.** -/
theorem accepts_iff (program : Program) :
    (program.run env observe).verdict = .ok true ↔ Accepts env program.operations := by
  rw [run_eq_runFrom, verdict_runFrom_eq_true_iff]
  rfl

/-! ## Runs with exact ints -/

section Guarded

variable {flag : Ints → Prop} {F : List Bytes → Prop} (hg : Ints.Guard (fun _ => flag) F)
  (henv : env.Answers)
include hg henv

theorem guarded_attempt (op : Operation) (index : Nat) {s : Stack}
    (hs : ∃ items, s = ofItems items ∧ F items) (h : flag (op.attempt env index s).2.ints) :
    (∃ ok, (op.attempt env index s).1 = .ok ok) ∧
      ∃ items, (op.attempt env index s).2.stack = ofItems items ∧ F items := by
  have hends := op.guarded_run hg henv (m := .on s) fun _ => hs
  rw [op.ints_attempt] at h
  rw [op.attempt_fst, op.stack_attempt]
  rcases hop : (op.run env).apply (.on s) with ⟨(f | e) | ok, m⟩ <;> rw [hop] at hends h
  · exact ⟨⟨false, rfl⟩, hends h⟩
  · exact absurd h hends
  · exact ⟨⟨ok, rfl⟩, hends.2 h⟩

theorem guarded_finish {s : Stack} (hs : ∃ items, s = ofItems items ∧ F items)
    (h : flag (finish s).2.ints) : ∃ ok, (finish s).1 = .ok ok := by
  have hcomposed : Action.Composed env (fun _ => True) True 0 (fun _ => True) Action.takeTruth :=
    Action.composed_takeTruth
  have hends := hcomposed.ends (n := 0) (Action.kept_guarded hg henv) (m := .on s) fun _ => hs
  obtain ⟨log, hfinish⟩ := finish_eq s
  rw [hfinish] at h ⊢
  rcases htake : Action.takeTruth.apply (.on s) with ⟨(f | e) | ok, m⟩ <;> rw [htake] at hends h
  · exact ⟨false, rfl⟩
  · exact absurd h hends
  · exact ⟨ok, rfl⟩

/-- **A run has a verdict** if its ints are exact. -/
theorem guarded_runFrom {index : Nat} {ops : List Operation} {s : Stack}
    (hs : ∃ items, s = ofItems items ∧ F items)
    (h : flag (runFrom env observe index ops s).ints) :
    ∃ ok, (runFrom env observe index ops s).verdict = .ok ok := by
  induction ops generalizing index s with
  | nil => exact guarded_finish hg henv hs h
  | cons op ops ih =>
    have hop := guarded_attempt hg henv op index hs
    rw [runFrom] at h ⊢
    rcases hrun : op.attempt env index s with ⟨e | (_ | _), m⟩ <;> rw [hrun] at h hop
    · obtain ⟨⟨ok, hok⟩, -⟩ := hop h
      cases hok
    · exact ⟨false, rfl⟩
    · obtain ⟨hfirst, hrest⟩ := hg.of_and (n := 0) h
      exact ih (hop hfirst).2 hrest

/-- **The stacks on the way** are stacks of items, and the rest of the run has exact ints too. -/
theorem guarded_stackAfter {index : Nat} {before after : List Operation} {s s' : Stack}
    (hs : ∃ items, s = ofItems items ∧ F items)
    (h : flag (runFrom env observe index (before ++ after) s).ints)
    (hbefore : stackAfter env before s = some s') :
    (∃ items, s' = ofItems items ∧ F items) ∧
      flag (runFrom env observe (index + before.length) after s').ints := by
  induction before generalizing index s with
  | nil =>
    cases hbefore
    exact ⟨hs, h⟩
  | cons op before ih =>
    have hop := guarded_attempt hg henv op index hs
    rw [List.cons_append, runFrom] at h
    rw [stackAfter_cons, op.stackAfter_eq_attempt env index] at hbefore
    rcases hrun : op.attempt env index s with ⟨e | (_ | _), m⟩ <;> rw [hrun] at h hop hbefore
    · cases hbefore
    · cases hbefore
    · obtain ⟨hfirst, hrest⟩ := hg.of_and (n := 0) h
      rw [List.length_cons, Nat.add_comm before.length, ← Nat.add_assoc]
      exact ih (hop hfirst).2 hrest hbefore

end Guarded

/-- Where operations lead in a run with exact ints, items fit, and the rest of the run has exact
ints too. -/
theorem exact_stackAfter (henv : env.Answers) {index : Nat} (before : List Operation)
    {after : List Operation} {items items' : List Bytes} (hitems : Fits items)
    (h : (runFrom env observe index (before ++ after) (ofItems items)).ints = .exact)
    (hbefore : stackAfter env before (ofItems items) = some (ofItems items')) :
    Fits items' ∧
      (runFrom env observe (index + before.length) after (ofItems items')).ints = .exact := by
  obtain ⟨⟨found, hfound, hfits⟩, hrest⟩ :=
    guarded_stackAfter Ints.guard_exact henv ⟨items, rfl, hitems⟩ h hbefore
  obtain rfl := ofItems_inj hfits.placed hfound
  exact ⟨hfits, hrest⟩

end Program

end SpendScript
