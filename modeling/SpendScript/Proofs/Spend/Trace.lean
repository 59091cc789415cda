import SpendScript.Proofs.Script.Number
import SpendScript.Proofs.Script.Overflow
import SpendScript.Proofs.Spend.Growth

/-!
# What an observer is shown

An observer is shown the operations that were tried, in order, each with the stack that it left,
whether it succeeded or not. As long as the ints of the stack are exact, the verdict can be read off
what was shown: all operations were tried, all succeeded, and the item on top in the end counts as
true. Otherwise an error may end the run, and then the operation that it came from is not shown.

* `Operation.result`, `Operation.stackLeft`, `Program.stackLeft`: what operations come to, and the
  stack after them, however they end;
* `Program.observations_runFrom_cons`, `verdict_runFrom_cons`: one operation;
* `Program.getElem?_observations`, `ok_of_lt_length_observations`, `getLast?_observations`,
  **`verdict_eq_error_iff`**: a whole run;
* **`Program.stackAfter_eq_observations`**: success by what was shown;
* `Program.finish_eq_ok_iff`, **`Program.verdict_eq_ok_iff`**: the end of a run, and the verdict;
* **`Program.run_trace`**: the run of a program for a spending;
* `Program.run_trace_overflow`: a run without a verdict.
-/

namespace SpendScript

section

variable (env : Environment)

/-- What an operation comes to on a stack: whether it succeeds, or the error that ends the run. -/
def Operation.result (op : Operation) (s : Stack) : Except AccessError Bool :=
  settle ((op.run env).apply (.on s)).1

/-- The stack that an operation leaves, however it ends: what was done before a fault stays done. -/
def Operation.stackLeft (op : Operation) (s : Stack) : Stack :=
  ((op.run env).apply (.on s)).2.stack

/-- The stack that operations leave, each applied to the stack that the one before it left. -/
def Program.stackLeft (ops : List Operation) (s : Stack) : Stack :=
  ops.foldl (fun s op => op.stackLeft env s) s

variable {env}

theorem Operation.stackAfter_eq (op : Operation) (s : Stack) :
    op.stackAfter env s =
      match op.result env s with
      | .ok true => some (op.stackLeft env s)
      | _ => none := by
  rw [stackAfter, result, stackLeft]
  rcases (op.run env).apply (.on s) with ⟨(f | e) | (_ | _), m⟩ <;> rfl

namespace Program

variable {α : Type} {s : Stack}

@[simp] theorem stackLeft_nil : stackLeft env [] s = s := rfl

@[simp] theorem stackLeft_cons (op : Operation) (ops : List Operation) :
    stackLeft env (op :: ops) s = stackLeft env ops (op.stackLeft env s) := rfl

theorem stackLeft_concat (ops : List Operation) (op : Operation) :
    stackLeft env (ops ++ [op]) s = op.stackLeft env (stackLeft env ops s) := by
  rw [stackLeft, List.foldl_append]
  rfl

/-! ## One operation -/

variable (observe : Step → α) (index : Nat) (op : Operation) (ops : List Operation) (s : Stack)

/-- **The first operation is shown**, unless an error ends the run in it, and the others after it if
it succeeds. -/
theorem observations_runFrom_cons :
    (runFrom env observe index (op :: ops) s).observations =
      match op.result env s with
      | .error _ => []
      | .ok ok => observe ⟨index, op, ok, op.stackLeft env s⟩ ::
          if ok then (runFrom env observe (index + 1) ops (op.stackLeft env s)).observations
          else [] := by
  obtain ⟨log, hop⟩ := op.attempt_eq env index s
  rw [runFrom, hop, Operation.result, Operation.stackLeft]
  rcases (op.run env).apply (.on s) with ⟨(f | e) | (_ | _), m⟩ <;> rfl

theorem verdict_runFrom_cons :
    (runFrom env observe index (op :: ops) s).verdict =
      match op.result env s with
      | .ok true => (runFrom env observe (index + 1) ops (op.stackLeft env s)).verdict
      | r => r := by
  obtain ⟨log, hop⟩ := op.attempt_eq env index s
  rw [runFrom, hop, Operation.result, Operation.stackLeft]
  rcases (op.run env).apply (.on s) with ⟨(f | e) | (_ | _), m⟩ <;> rfl

/-! ## Whole runs -/

/-- Observers that note different things are shown the same, and the verdict is the same. -/
theorem runFrom_eq_map : (runFrom env observe index ops s).observations =
      (runFrom env id index ops s).observations.map observe ∧
    (runFrom env observe index ops s).verdict = (runFrom env id index ops s).verdict := by
  induction ops generalizing index s with
  | nil => exact ⟨rfl, rfl⟩
  | cons op ops ih =>
    obtain ⟨hobservations, hverdict⟩ := ih (index + 1) (op.stackLeft env s)
    rw [observations_runFrom_cons, observations_runFrom_cons, verdict_runFrom_cons,
      verdict_runFrom_cons]
    rcases op.result env s with e | (_ | _)
    · exact ⟨rfl, rfl⟩
    · exact ⟨rfl, rfl⟩
    · exact ⟨congrArg (_ :: ·) hobservations, hverdict⟩

theorem verdict_runFrom_eq {β : Type} (observe' : Step → β) :
    (runFrom env observe index ops s).verdict = (runFrom env observe' index ops s).verdict :=
  (runFrom_eq_map observe index ops s).2.trans (runFrom_eq_map observe' index ops s).2.symm

theorem length_observations_le :
    (runFrom env id index ops s).observations.length ≤ ops.length := by
  induction ops generalizing index s with
  | nil => exact Nat.le_refl 0
  | cons op ops ih =>
    rw [observations_runFrom_cons]
    rcases op.result env s with e | (_ | _)
    · exact Nat.zero_le _
    · exact Nat.succ_le_succ (Nat.zero_le _)
    · exact Nat.succ_le_succ (ih (index + 1) _)

variable {index ops s}

/-- Each step shows its own operation, tried on the stack that the ones before it left. -/
theorem getElem?_observations {j : Nat} {step : Step}
    (h : (runFrom env id index ops s).observations[j]? = some step) :
    ∃ op ok, ops[j]? = some op ∧ op.result env (stackLeft env (ops.take j) s) = .ok ok ∧
      step = ⟨index + j, op, ok, op.stackLeft env (stackLeft env (ops.take j) s)⟩ := by
  induction ops generalizing index s j with
  | nil => cases h
  | cons op ops ih =>
    rw [observations_runFrom_cons] at h
    cases hop : op.result env s with
    | error e =>
      rw [hop] at h
      cases h
    | ok ok =>
      rw [hop] at h
      cases j with
      | zero =>
        obtain rfl := Option.some.inj h
        exact ⟨op, ok, rfl, hop, rfl⟩
      | succ j =>
        rw [List.getElem?_cons_succ] at h
        cases ok with
        | false => cases h
        | true =>
          obtain ⟨op', ok, hop', hresult, hstep⟩ := ih h
          rw [Nat.add_assoc, Nat.add_comm 1 j] at hstep
          exact ⟨op', ok, hop', hresult, hstep⟩

/-- All steps but the last succeeded. -/
theorem ok_of_lt_length_observations {j : Nat} {step : Step}
    (h : (runFrom env id index ops s).observations[j]? = some step)
    (hj : j + 1 < (runFrom env id index ops s).observations.length) : step.ok = true := by
  induction ops generalizing index s j with
  | nil => cases h
  | cons op ops ih =>
    rw [observations_runFrom_cons] at h hj
    rcases hop : op.result env s with e | (_ | _) <;> rw [hop] at h hj
    · cases h
    · exact absurd hj (by simp)
    · cases j with
      | zero =>
        obtain rfl := Option.some.inj h
        rfl
      | succ j => exact ih h (Nat.lt_of_succ_lt_succ hj)

/-- If there is a verdict and not all operations were tried, the last one that was did not
succeed. -/
theorem getLast?_observations {v : Bool} (hv : (runFrom env id index ops s).verdict = .ok v)
    (h : (runFrom env id index ops s).observations.length < ops.length) :
    ∃ step, (runFrom env id index ops s).observations.getLast? = some step ∧ step.ok = false := by
  induction ops generalizing index s with
  | nil => exact absurd h (Nat.not_lt_zero _)
  | cons op ops ih =>
    rw [observations_runFrom_cons] at h ⊢
    rw [verdict_runFrom_cons] at hv
    rcases hop : op.result env s with e | (_ | _) <;> rw [hop] at h hv
    · cases hv
    · exact ⟨_, rfl, rfl⟩
    · obtain ⟨step, hstep, hfalse⟩ := ih hv (Nat.lt_of_succ_lt_succ h)
      refine ⟨step, ?_, hfalse⟩
      dsimp only
      rw [if_pos rfl, List.getLast?_cons, hstep]
      rfl

/-- **An error ends a run** exactly if all that was shown succeeded and the operation after it, or
the end of the run, comes to this error. -/
theorem verdict_eq_error_iff {e : AccessError} :
    (runFrom env id index ops s).verdict = .error e ↔
      (∀ step ∈ (runFrom env id index ops s).observations, step.ok = true) ∧
        ((∃ op, ops[(runFrom env id index ops s).observations.length]? = some op ∧
            op.result env (stackLeft env
              (ops.take (runFrom env id index ops s).observations.length) s) = .error e) ∨
          (runFrom env id index ops s).observations.length = ops.length ∧
            (finish (stackLeft env ops s)).1 = .error e) := by
  induction ops generalizing index s with
  | nil => simp [runFrom]
  | cons op ops ih =>
    rw [verdict_runFrom_cons, observations_runFrom_cons]
    -- the operation comes to an error, or it fails, or the rest of the run decides
    rcases hop : op.result env s with e' | (_ | _)
    · simp [hop]
    · refine iff_of_false (fun h => ?_) fun h => ?_
      · cases h
      · exact absurd (h.1 _ List.mem_cons_self) Bool.false_ne_true
    · dsimp only
      rw [if_pos rfl, ih, List.forall_mem_cons, List.length_cons, List.length_cons,
        List.getElem?_cons_succ, List.take_succ_cons, stackLeft_cons, stackLeft_cons,
        Nat.add_right_cancel_iff]
      exact and_congr_left fun _ => (and_iff_right rfl).symm

/-- **Operations succeed** if all of them were shown and all that was shown succeeded. -/
theorem stackAfter_eq_observations (index : Nat) (ops : List Operation) (s s' : Stack) :
    stackAfter env ops s = some s' ↔
      (runFrom env id index ops s).observations.length = ops.length ∧
        (∀ step ∈ (runFrom env id index ops s).observations, step.ok = true) ∧
        stackLeft env ops s = s' := by
  induction ops generalizing index s with
  | nil => simp [runFrom]
  | cons op ops ih =>
    rw [stackAfter_cons, op.stackAfter_eq, observations_runFrom_cons, stackLeft_cons]
    rcases op.result env s with e | (_ | _)
    · refine iff_of_false (fun h => ?_) fun h => ?_
      · cases h
      · exact absurd h.1.symm (Nat.succ_ne_zero _)
    · refine iff_of_false (fun h => ?_) fun h => ?_
      · cases h
      · exact absurd (h.2.1 _ List.mem_cons_self) Bool.false_ne_true
    · rw [Option.bind_some, ih (index + 1)]
      dsimp only
      rw [if_pos rfl, List.length_cons, List.length_cons,
        Nat.add_right_cancel_iff, List.forall_mem_cons]
      exact and_congr_right fun _ => and_congr_left fun _ => (and_iff_right rfl).symm

/-! ## The end of a run -/

theorem getLast?_toList_of_top {item : ByteArray} (h : s.top = .ok item) :
    s.toList.getLast? = some (Bytes.ofArray item) := by
  rw [Stack.toList, List.getLast?_map, Array.getLast?_toList]
  rw [Stack.top] at h
  cases hback : s.spans.back? with
  | none =>
    rw [hback] at h
    cases h
  | some span =>
    rw [hback] at h
    cases hslice : s.slice span with
    | error e =>
      simp only [hslice] at h
      cases h
    | ok found =>
      simp only [hslice] at h
      cases h
      simp only [Option.map_some, hslice]
      rfl

theorem toList_of_top_fault {f : Fault} (h : s.top = .error (.fault f)) : s.toList = [] := by
  rw [Stack.top] at h
  cases hback : s.spans.back? with
  | none => simp [Stack.toList, Array.back?_eq_none_iff.mp hback]
  | some span =>
    rw [hback] at h
    cases hslice : s.slice span <;> simp only [hslice] at h <;> cases h

theorem takeTruth_of_top {item : ByteArray} (h : s.top = .ok item) :
    (Action.takeTruth.apply (.on s)).1 =
      ((Action.pop 1).apply (.on s)).1.map fun _ => ScriptNumber.isTruthy (Bytes.ofArray item) := by
  have htop : Action.top.apply (.on s) = (.ok (Bytes.ofArray item), .on s) := by
    rw [Action.top, Action.apply_bind, Action.viewTop, Action.apply_inspect, Machine.on, h]
    rfl
  rw [Action.takeTruth, Action.apply_bind, Action.takeTop, Action.apply_bind, htop]
  dsimp only
  rw [Action.apply_bind]
  rcases (Action.pop 1).apply (.on s) with ⟨e | u, m⟩ <;> rfl

theorem takeTruth_of_top_error {e : Interruption} (h : s.top = .error e) :
    (Action.takeTruth.apply (.on s)).1 = .error e := by
  have htop : Action.viewTop.apply (.on s) = (.error e, .on s) := by
    rw [Action.viewTop, Action.apply_inspect, Machine.on, h]
  rw [Action.takeTruth, Action.apply_bind, Action.takeTop, Action.apply_bind, Action.top,
    Action.apply_bind, htop]

/-- Where there is a verdict at the end of a run, it accepts if the topmost item counts as true and
the int that counts the items has not turned round. -/
theorem finish_eq_ok_iff {v : Bool} (h : (finish s).1 = .ok v) :
    v = true ↔ 0 < s.size.toInt ∧
      ∃ below item, s.toList = below ++ [item] ∧ ScriptNumber.isTruthy item = true := by
  have hend : settle (Action.takeTruth.apply (.on s)).1 = .ok v := by
    obtain ⟨log, hfinish⟩ := finish_eq s
    rwa [hfinish] at h
  cases htop : s.top with
  | error e =>
    rw [takeTruth_of_top_error htop] at hend
    cases e with
    | fault f =>
      cases hend
      rw [toList_of_top_fault htop]
      exact iff_of_false Bool.false_ne_true fun ⟨_, below, item, hnil, _⟩ => by simp at hnil
    | access e => cases hend
  | ok item =>
    obtain ⟨below, hbelow⟩ := List.getLast?_eq_some_iff.mp (getLast?_toList_of_top htop)
    have htruth : (∃ below item, s.toList = below ++ [item] ∧ ScriptNumber.isTruthy item = true) ↔
        ScriptNumber.isTruthy (Bytes.ofArray item) = true := by
      refine ⟨fun ⟨below', item', heq, htrue⟩ => ?_, fun htrue => ⟨below, _, hbelow, htrue⟩⟩
      obtain ⟨-, hitem⟩ := List.append_inj' (hbelow.symm.trans heq) rfl
      exact (List.cons.inj hitem).1 ▸ htrue
    rw [takeTruth_of_top htop, Machine.on, Action.apply_pop, Stack.drop] at hend
    rw [htruth]
    by_cases hsize : s.size.toInt < (1 : Nat)
    · rw [if_pos hsize] at hend
      cases hend
      exact iff_of_false Bool.false_ne_true fun h => by omega
    · rw [if_neg hsize] at hend
      dsimp only at hend
      split at hend
      · obtain rfl := Except.ok.inj hend
        exact (and_iff_right (by omega)).symm
      · cases hend

/-- A run accepts if all operations were shown, all succeeded, and its end succeeds too. -/
theorem verdict_eq_true_iff : (runFrom env id index ops s).verdict = .ok true ↔
    (runFrom env id index ops s).observations.length = ops.length ∧
      (∀ step ∈ (runFrom env id index ops s).observations, step.ok = true) ∧
      (finish (stackLeft env ops s)).1 = .ok true := by
  rw [verdict_runFrom_eq_true_iff]
  constructor
  · rintro ⟨s', hs', hfinish⟩
    obtain ⟨hlength, hok, rfl⟩ := (stackAfter_eq_observations index ops s s').mp hs'
    exact ⟨hlength, hok, hfinish⟩
  · rintro ⟨hlength, hok, hfinish⟩
    exact ⟨_, (stackAfter_eq_observations index ops s _).mpr ⟨hlength, hok, rfl⟩, hfinish⟩

/-- **What a verdict says of what was shown.** -/
theorem verdict_eq_ok_iff {v : Bool} (h : (runFrom env id index ops s).verdict = .ok v) :
    v = true ↔
      ((runFrom env id index ops s).observations.length = ops.length ∧
        (∀ step ∈ (runFrom env id index ops s).observations, step.ok = true) ∧
        ∃ below item, (stackLeft env ops s).toList = below ++ [item] ∧
          ScriptNumber.isTruthy item = true) ∧
      0 < (stackLeft env ops s).size.toInt := by
  have htrue : v = true ↔ (runFrom env id index ops s).verdict = .ok true := by
    rw [h, Except.ok.injEq]
  rw [htrue, verdict_eq_true_iff]
  constructor
  · rintro ⟨hlength, hok, hfinish⟩
    obtain ⟨hsize, hlast⟩ := (finish_eq_ok_iff hfinish).mp rfl
    exact ⟨⟨hlength, hok, hlast⟩, hsize⟩
  · rintro ⟨⟨hlength, hok, hlast⟩, hsize⟩
    refine ⟨hlength, hok, ?_⟩
    cases hfinish : (finish (stackLeft env ops s)).1 with
    | error e =>
      rw [verdict_eq_error_iff.mpr ⟨hok, Or.inr ⟨hlength, hfinish⟩⟩] at h
      cases h
    | ok v => exact congrArg Except.ok ((finish_eq_ok_iff hfinish).mpr ⟨hsize, hlast⟩)

/-- In a run with exact ints, the size of the stack that is left counts the items seen on it. -/
theorem toInt_size_of_stackAfter (henv : env.Answers) {s' : Stack}
    (h : (runFrom env observe index ops Stack.empty).ints = .exact)
    (hs' : stackAfter env ops Stack.empty = some s') : s'.size.toInt = s'.toList.length := by
  rw [← List.append_nil ops] at h
  obtain ⟨⟨items, rfl, hfits⟩, -⟩ :=
    guarded_stackAfter Ints.guard_exact henv ⟨[], rfl, Stack.fits_nil⟩ h hs'
  rw [Stack.size_ofItems hfits.count, Stack.toList_ofItems hfits.placed, List.length_reverse]

/-- **The verdict and what is shown agree.** An observer is shown the first operations of the
program in order, up to the first that does not succeed or to the last; each with the stack that it
left, that is, the one that it and those before it make of the empty stack. What the observer notes
has no part in it. If there is a verdict, the last operation that was shown has failed or was the
last of all; and the program is accepted if all operations were shown, all succeeded, and the item
on top in the end is neither empty nor zeros nor zeros below a lone sign. There is a verdict as
long as the ints of the stack are exact, which they are if the program is not too long. If they are
not, the next operation or the end of the run may come to an error. Then there is no verdict, and
all that was shown succeeded. -/
theorem run_trace (p : Primitives) (program : Program) (spend : Spend) :
    let env := Spend.environment p spend
    let ops := program.operations
    let run := program.run env id
    let steps := run.observations
    let left := stackLeft env ops Stack.empty
    let accepted := steps.length = ops.length ∧ (∀ step ∈ steps, step.ok = true) ∧
      ∃ below item, left.toList = below ++ [item] ∧ item ≠ [] ∧
        ∀ n, item ≠ List.replicate n 0 ∧ item ≠ List.replicate n 0 ++ [0x80]
    steps.length ≤ ops.length ∧
    (∀ j step, steps[j]? = some step →
      step.index = j ∧ ops[j]? = some step.operation ∧
      step.stack = stackLeft env (ops.take (j + 1)) Stack.empty ∧
      step.operation.result env (stackLeft env (ops.take j) Stack.empty) = .ok step.ok ∧
      (j + 1 < steps.length → step.ok = true)) ∧
    (∀ {α : Type} (observe : Step → α),
      (program.run env observe).observations = steps.map observe ∧
        (program.run env observe).verdict = run.verdict) ∧
    (∀ verdict, run.verdict = .ok verdict →
      (steps.length < ops.length → ∃ step, steps.getLast? = some step ∧ step.ok = false) ∧
      (verdict = true ↔ accepted ∧ 0 < left.size.toInt)) ∧
    (run.ints = .exact → ∃ verdict, run.verdict = .ok verdict ∧ (verdict = true ↔ accepted)) ∧
    (run.ints.places = true → ∃ verdict, run.verdict = .ok verdict) ∧
    ((∀ data, .push data ∈ ops → data.length ≤ 75) → ops.length < 14300000 → run.ints = .exact) ∧
    ∀ e, run.verdict = .error e ↔
      (∀ step ∈ steps, step.ok = true) ∧
        ((∃ op, ops[steps.length]? = some op ∧
            op.result env (stackLeft env (ops.take steps.length) Stack.empty) = .error e) ∨
          steps.length = ops.length ∧ (finish left).1 = .error e) := by
  intro env ops run steps left accepted
  have henv : env.Answers := Spend.answers_environment p spend
  have hrun : run = runFrom env id 0 ops Stack.empty := run_eq_runFrom env id program
  clear_value run
  subst hrun
  have hverdict (v : Bool) (h : (runFrom env id 0 ops Stack.empty).verdict = .ok v) :
      v = true ↔ accepted ∧ 0 < left.size.toInt := by
    have hiff := verdict_eq_ok_iff h
    simp only [ScriptNumber.isTruthy_iff] at hiff
    exact hiff
  have hexists {flag : Ints → Prop} {F : List Bytes → Prop} (hg : Ints.Guard (fun _ => flag) F)
      (hnil : F []) (h : flag (runFrom env id 0 ops Stack.empty).ints) :
      ∃ v, (runFrom env id 0 ops Stack.empty).verdict = .ok v :=
    guarded_runFrom hg henv ⟨[], rfl, hnil⟩ h
  refine ⟨length_observations_le 0 ops _, fun j step h => ?_, fun observe => ?_,
    fun v hv => ⟨getLast?_observations hv, hverdict v hv⟩, fun hexact => ?_,
    hexists Ints.guard_places Stack.placed_nil, fun hshort hlength => ?_,
    fun e => verdict_eq_error_iff⟩
  · obtain ⟨op, ok, hop, hresult, rfl⟩ := getElem?_observations h
    have htake : ops.take (j + 1) = ops.take j ++ [op] := by rw [List.take_add_one, hop]; rfl
    refine ⟨Nat.zero_add j, hop, ?_, hresult, ok_of_lt_length_observations h⟩
    rw [htake, stackLeft_concat]
  · rw [run_eq_runFrom]
    exact runFrom_eq_map observe 0 ops Stack.empty
  · obtain ⟨v, hv⟩ := hexists Ints.guard_exact Stack.fits_nil hexact
    refine ⟨v, hv, (hverdict v hv).trans (and_iff_left_of_imp ?_)⟩
    -- an exact size is positive where an item is seen
    rintro ⟨hlength, hok, below, item, hlast, -⟩
    have hleft : stackAfter env ops Stack.empty = some left :=
      (stackAfter_eq_observations 0 ops _ _).mpr ⟨hlength, hok, rfl⟩
    rw [toInt_size_of_stackAfter id henv hexact hleft, hlast, List.length_append,
      List.length_singleton]
    exact Int.natCast_pos.mpr (Nat.succ_pos _)
  · exact ints_runFrom henv (Spend.admits_isShort p spend) id
      (fun op hop data hdata => hshort data (hdata ▸ hop)) 0 Stack.short_empty (by omega)

/-- Two pushes of 75 bytes, 14316558 copies of both, and the removal of one item: the removal is not
shown, though all that was shown succeeded, and there is no verdict. -/
theorem run_trace_overflow :
    let program : Program :=
      ⟨copies (List.replicate 75 7) 14316558 ++ [.code (.shuffle .drop)], ""⟩
    let run := program.run
      (Spend.environment Primitives.standard ⟨Transaction.empty, 0, Coins.empty⟩) id
    ¬ (run.observations.length < program.operations.length →
        ∃ step, run.observations.getLast? = some step ∧ step.ok = false) ∧
      run.verdict = .error (.badLength (-2147483521)) := by
  intro program run
  have hitem : (List.replicate 75 (7 : UInt8)).length = 75 := List.length_replicate
  have hrun : run = runFrom _ id 0 program.operations Stack.empty := run_eq_runFrom _ id program
  clear_value run
  subst hrun
  obtain ⟨hverdict, hlength⟩ :=
    runFrom_copies_drop (Spend.environment Primitives.standard ⟨Transaction.empty, 0, Coins.empty⟩)
      id (List.replicate 75 7) 14316558 (by rw [hitem]) (by decide) (by rw [hitem]; decide)
      (by rw [hitem]; decide) 0 []
  rw [hitem] at hverdict
  refine ⟨fun hlast => ?_, hverdict⟩
  obtain ⟨step, hstep, hfailed⟩ := hlast (by
    rw [hlength, List.length_append, length_copies]
    exact Nat.lt_succ_self _)
  have hok := (verdict_eq_error_iff.mp hverdict).1 step (List.mem_of_getLast? hstep)
  rw [hfailed] at hok
  cases hok

end Program

end

end SpendScript
