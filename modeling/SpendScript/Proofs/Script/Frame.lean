import Mathlib.Data.List.Forall2
import SpendScript.Proofs.Script.Outcome

/-!
# What lies below

Operations other than the one that counts the items do not depend on what lies below the items that
they look at, and they leave it there. So a program that does not run out of items ends in the same
way on a deeper stack, with its own items on top of those that were below, as long as the ints that
the deeper stack is kept by are exact.

* `Action.Composed.inexact`: an int that was not exact is not forgotten;
* `Action.Framed`, **`Operation.framed_run`**: one operation;
* `Outcome`, `Program.outcome`: how a program ends; `Program.verdict_eq_outcome`;
* **`Program.outcome_frame`**: programs.
-/

namespace SpendScript

open Stack

/-! ## One operation -/

/-- Items were missing. -/
def Lacks {α : Type} (r : Except Interruption α) : Prop :=
  ∃ f : Fault, f.error = .stackUnderflow ∧ r = .error (.fault f)

namespace Action

variable {α β : Type} {env : Environment} {D : Prop} {count : Nat} {P : α → Prop} {x : Action α}

theorem kept_inexact (env : Environment) : Kept env (fun _ => True)
    (fun _ m => m.ints ≠ .exact) (fun _ m => m.ints ≠ .exact) where
  mono _ h := h
  mono_error _ h := h
  viewTop {_ m} hm := by
    rw [viewTop, apply_inspect]
    rcases m.stack.top with (f | e) | item <;> first | exact hm | exact ⟨trivial, hm⟩
  view {_ m} position hm := by
    rw [view, apply_inspect]
    rcases m.stack.peek position with (f | e) | item <;> first | exact hm | exact ⟨trivial, hm⟩
  pop {_ count m} _ hm := by
    have hlost (made : Ints) : m.ints.and made ≠ .exact :=
      fun h => hm (Ints.and_eq_exact_iff.mp h).1
    rw [apply_pop]
    cases m.stack.drop count with
    | error f => exact hm
    | ok left =>
      dsimp only
      cases left.trim with
      | ok s => exact ⟨trivial, hlost _⟩
      | error e => exact hlost _
  append {_ m item} _ hm := fun h => hm (Ints.and_eq_exact_iff.mp h).1
  check {_ m} signature key hm := by
    rw [apply_check]
    rcases env.check signature key with e | ⟨answer, log⟩
    · exact hm
    · exact ⟨trivial, hm⟩

/-- An int that was not exact is not forgotten. -/
theorem Composed.inexact (hx : Composed env (fun _ => True) D count P x) {m : Machine}
    (h : (x.apply m).2.ints = .exact) : m.ints = .exact := by
  by_contra hm
  have hends := hx.ends (n := 0) (kept_inexact env) hm
  rcases hrun : x.apply m with ⟨(f | e) | a, m'⟩ <;> rw [hrun] at h hends
  · exact hends h
  · exact hends h
  · exact hends.2 h

/-- Unless it lacks items, the action ends in the same way on top of the items `d` and leaves them
there, if the ints that it makes there are exact. -/
def Framed (d : List Bytes) (x : Action α) : Prop :=
  ∀ (items : List Bytes) (log : Log), Fits (items ++ d) →
    ¬ Lacks (x.apply ⟨ofItems items, log, .exact⟩).1 →
    (x.apply ⟨ofItems (items ++ d), log, .exact⟩).2.ints = .exact →
    ∃ items' log',
      x.apply ⟨ofItems items, log, .exact⟩ =
        ((x.apply ⟨ofItems items, log, .exact⟩).1, ⟨ofItems items', log', .exact⟩) ∧
      x.apply ⟨ofItems (items ++ d), log, .exact⟩ =
        ((x.apply ⟨ofItems items, log, .exact⟩).1, ⟨ofItems (items' ++ d), log', .exact⟩) ∧
      Fits (items' ++ d)

variable {d : List Bytes}

/-- A look is framed if it finds the same on the deeper stack, unless it finds nothing. -/
theorem framed_inspect {look : Stack → Except Interruption α}
    (h : ∀ items : List Bytes, Fits (items ++ d) →
      Lacks (look (ofItems items)) ∨ look (ofItems (items ++ d)) = look (ofItems items)) :
    (inspect look).Framed d := by
  intro items log hfits hlacks _
  refine ⟨items, log, rfl, ?_, hfits⟩
  exact congrArg (·, _) ((h items hfits).resolve_left hlacks)

theorem framed_viewTop : viewTop.Framed d := framed_inspect fun items hfits => by
  cases items with
  | nil => exact Or.inl ⟨.topOfEmpty, rfl, rfl⟩
  | cons item below =>
    rw [List.cons_append] at hfits ⊢
    rw [top_ofItems_cons hfits.placed, top_ofItems_cons (Fits.upper hfits).placed]
    exact Or.inr rfl

theorem framed_view (position : Int) : (view position).Framed d := by
  refine framed_inspect fun items hfits => ?_
  by_cases hp : position < 0
  · exact Or.inl ⟨.noItem position, rfl, if_pos (Or.inl hp)⟩
  · obtain ⟨k, rfl⟩ := Int.eq_ofNat_of_zero_le (Int.not_lt.mp hp)
    rw [peek_ofItems hfits, peek_ofItems hfits.upper]
    by_cases hk : k < items.length
    · rw [List.getElem?_append_left hk]
      exact Or.inr rfl
    · rw [List.getElem?_eq_none (Nat.not_lt.mp hk)]
      exact Or.inl ⟨.noItem k, rfl, rfl⟩

theorem framed_pop {count : Nat} (hcount : 0 < count) : (pop count).Framed d := by
  intro items log hfits hlacks _
  have hown := apply_pop_ofItems (hfits.upper.placed.length_flatten_drop_lt hcount) log .exact
  have hdeeper := apply_pop_ofItems (hfits.placed.length_flatten_drop_lt hcount) log .exact
  rw [size_ofItems hfits.upper.count] at hown
  rw [size_ofItems hfits.count, List.length_append] at hdeeper
  by_cases hlt : items.length < count
  · rw [if_pos (by omega)] at hown
    rw [hown] at hlacks
    exact absurd ⟨_, rfl, rfl⟩ hlacks
  · rw [if_neg (by omega)] at hown hdeeper
    rw [hown, hdeeper]
    have hdrop : (items ++ d).drop count = items.drop count ++ d :=
      List.drop_append_of_le_length (Nat.not_lt.mp hlt)
    exact ⟨items.drop count, log, rfl, by rw [hdrop], hdrop ▸ hfits.drop count⟩

theorem framed_append (item : ByteArray) : (append item).Framed d := by
  intro items log hfits _ hexact
  obtain ⟨item, rfl⟩ : ∃ bytes : Bytes, item = bytes.toByteArray :=
    ⟨_, (Bytes.toByteArray_ofArray item).symm⟩
  rw [apply_append, Ints.exact_and, appendInts_eq_exact] at hexact
  have hown : Fits (item :: items) := by
    rw [← List.cons_append] at hexact
    exact hexact.upper
  refine ⟨item :: items, log, ?_, ?_, hexact⟩
  · rw [apply_append, append_ofItems, (appendInts_eq_exact item).mpr hown]
    rfl
  · rw [apply_append, append_ofItems, (appendInts_eq_exact item).mpr hexact]
    rfl

theorem framed_check (env : Environment) (signature key : Bytes) :
    (check env signature key).Framed d := by
  intro items log hfits _ _
  rw [apply_check, apply_check]
  rcases env.check signature key with e | ⟨answer, more⟩
  · exact ⟨items, log, rfl, rfl, hfits⟩
  · exact ⟨items, log ++ more, rfl, rfl, hfits⟩

/-- One framed action after another. -/
theorem Framed.bind {f : α → Action β} (hx : x.Framed d)
    (hf : ∀ m a, (x.apply m).1 = .ok a → (f a).Framed d)
    (hinexact : ∀ m a, (x.apply m).1 = .ok a → ∀ m', ((f a).apply m').2.ints = .exact →
      m'.ints = .exact) : (x >>= f).Framed d := by
  intro items log hfits hlacks hexact
  have hfirst : (x.apply ⟨ofItems (items ++ d), log, .exact⟩).2.ints = .exact := by
    rw [apply_bind] at hexact
    rcases hdeeper : x.apply ⟨ofItems (items ++ d), log, .exact⟩ with ⟨e | a, m⟩ <;>
      rw [hdeeper] at hexact
    · exact hexact
    · exact hinexact _ a (congrArg Prod.fst hdeeper) m hexact
  rw [apply_bind] at hlacks hexact
  rw [apply_bind, apply_bind]
  rcases hown : x.apply ⟨ofItems items, log, .exact⟩ with ⟨e | a, m⟩ <;> rw [hown] at hlacks
  · obtain ⟨items', log', h, hdeeper, hfits'⟩ := hx items log hfits
      (by rw [hown]; exact fun ⟨f, hf, he⟩ => hlacks ⟨f, hf, by cases he; rfl⟩) hfirst
    rw [hown] at h hdeeper
    rw [hdeeper]
    exact ⟨items', log', congrArg (_, ·) (congrArg Prod.snd h), rfl, hfits'⟩
  · obtain ⟨items', log', h, hdeeper, hfits'⟩ := hx items log hfits
      (by rw [hown]; exact fun ⟨f, hf, he⟩ => by cases he) hfirst
    rw [hown] at h hdeeper
    rw [hdeeper] at hexact ⊢
    obtain ⟨-, rfl⟩ := Prod.mk.inj h
    exact hf _ a (congrArg Prod.fst hown) items' log' hfits' hlacks hexact

/-- **Compositions of calls are framed**, as long as they do not ask how many items there are. -/
theorem Composed.framed (hx : Composed env (fun _ => True) False count P x) : x.Framed d := by
  induction hx with
  | pure h => exact fun items log hfits _ _ => ⟨items, log, rfl, rfl, hfits⟩
  | fault f => exact fun items log hfits _ _ => ⟨items, log, rfl, rfl, hfits⟩
  | viewTop => exact framed_viewTop
  | view position => exact framed_view position
  | size h => exact h.elim
  | pop count h => exact framed_pop h
  | append h => exact framed_append _
  | check signature key => exact framed_check env signature key
  | bind hx hf ihx ihf =>
    exact ihx.bind (fun m a ha => ihf a (hx.result ha))
      fun m a ha m' h => (hf a (hx.result ha)).inexact h
  | weaken hx h ih => exact ih

end Action

/-- **No operation but the one that counts depends on what lies below** the items that it looks at,
and none changes it. -/
theorem Operation.framed_run (env : Environment) {op : Operation} (d : List Bytes)
    (h : op ≠ .code (.shuffle .depth)) : (op.run env).Framed d :=
  (op.composed_any env h).framed

/-! ## How programs end -/

/-- How operations end: what the last one that ran came to, how many ran, the stack that they left,
and whether all ints were exact. -/
structure Outcome where
  result : Except Interruption Bool
  count : Nat
  stack : Stack
  ints : Ints

namespace Outcome

/-- The outcome with one operation before, which made some ints. -/
def next (o : Outcome) (ints : Ints) : Outcome :=
  { o with count := o.count + 1, ints := ints.and o.ints }

/-- What such an ending means for the program. -/
def verdict (o : Outcome) : Except AccessError Bool :=
  match o.result with
  | .ok true => (Program.finish o.stack).1
  | r => settle r

end Outcome

namespace Program

variable (env : Environment)

/-- Runs operations until one does not succeed. -/
def outcome : List Operation → Stack → Outcome
  | [], s => ⟨.ok true, 0, s, .exact⟩
  | op :: ops, s =>
    match (op.run env).apply (.on s) with
    | (.ok true, m) => (outcome ops m.stack).next m.ints
    | (result, m) => ⟨result, 1, m.stack, m.ints⟩

variable {env}

theorem outcome_of_ok {op : Operation} {s : Stack} {m : Machine}
    (h : (op.run env).apply (.on s) = (.ok true, m)) (ops : List Operation) :
    outcome env (op :: ops) s = (outcome env ops m.stack).next m.ints := by
  rw [outcome, h]

theorem outcome_of_stop {op : Operation} {s : Stack} {m : Machine} {r : Except Interruption Bool}
    (h : (op.run env).apply (.on s) = (r, m)) (hr : r ≠ .ok true) (ops : List Operation) :
    outcome env (op :: ops) s = ⟨r, 1, m.stack, m.ints⟩ := by
  rw [outcome, h]
  rcases r with e | (_ | _)
  · rfl
  · rfl
  · exact absurd rfl hr

/-- **The verdict** depends on the outcome only. -/
theorem verdict_eq_outcome {α : Type} (observe : Step → α) (index : Nat) (ops : List Operation)
    (s : Stack) : (runFrom env observe index ops s).verdict = (outcome env ops s).verdict := by
  induction ops generalizing index s with
  | nil => rfl
  | cons op ops ih =>
    obtain ⟨log, hop⟩ := op.attempt_eq env index s
    rw [runFrom, hop]
    rcases h : (op.run env).apply (.on s) with ⟨(f | e) | (_ | _), m⟩
    · rw [outcome_of_stop h (by simp)]; rfl
    · rw [outcome_of_stop h (by simp)]; rfl
    · rw [outcome_of_stop h (by simp)]; rfl
    · rw [outcome_of_ok h]
      exact ih (index + 1) m.stack

/-- An observer sees all operations that ran. -/
theorem length_observations {α : Type} (observe : Step → α) (index : Nat) (ops : List Operation)
    (s : Stack) (h : ∀ e, (outcome env ops s).result ≠ .error (.access e)) :
    (runFrom env observe index ops s).observations.length = (outcome env ops s).count := by
  induction ops generalizing index s with
  | nil => rfl
  | cons op ops ih =>
    obtain ⟨log, hop⟩ := op.attempt_eq env index s
    rw [runFrom, hop]
    rcases hrun : (op.run env).apply (.on s) with ⟨(f | e) | (_ | _), m⟩
    · rw [outcome_of_stop hrun (by simp)]; rfl
    · rw [outcome_of_stop hrun (by simp)] at h
      exact absurd rfl (h e)
    · rw [outcome_of_stop hrun (by simp)]; rfl
    · rw [outcome_of_ok hrun] at h ⊢
      exact congrArg (· + 1) (ih (index + 1) m.stack h)

/-! ## Programs -/

section Deeper

variable {ops : List Operation} {own d : List Bytes} {op : Operation} {s : Stack}

theorem not_lacks_apply (h : ¬ Lacks (outcome env (op :: ops) s).result) :
    ¬ Lacks ((op.run env).apply (.on s)).1 := by
  rcases hrun : (op.run env).apply (.on s) with ⟨r, m⟩
  by_cases hr : r = .ok true
  · subst hr
    rintro ⟨f, -, hf⟩
    cases hf
  · rwa [outcome_of_stop hrun hr] at h

theorem ints_apply (h : (outcome env (op :: ops) s).ints = .exact) :
    ((op.run env).apply (.on s)).2.ints = .exact := by
  rcases hrun : (op.run env).apply (.on s) with ⟨r, m⟩
  by_cases hr : r = .ok true
  · subst hr
    rw [outcome_of_ok hrun] at h
    exact (Ints.and_eq_exact_iff.mp h).1
  · rwa [outcome_of_stop hrun hr] at h

/-- What is shown of an operation on a deeper stack is what is shown on its own stack, with the same
items below. -/
def Step.Below (below : List Bytes) (deeper step : Step) : Prop :=
  deeper.index = step.index ∧ deeper.operation = step.operation ∧ deeper.ok = step.ok ∧
    ∃ items, step.stack.Holds items ∧ deeper.stack.Holds (below ++ items)

theorem holds_append (h : Fits (own ++ d)) : (ofItems own).Holds own.reverse ∧
    (ofItems (own ++ d)).Holds (d.reverse ++ own.reverse) := by
  rw [← List.reverse_append]
  exact ⟨holds_ofItems h.upper, holds_ofItems h⟩

/-- The same outcome on top of the items `d`, and the same steps on the way. -/
theorem outcome_append (hops : ∀ op ∈ ops, op ≠ .code (.shuffle .depth)) (hfits : Fits (own ++ d))
    (h : ¬ Lacks (outcome env ops (ofItems own)).result)
    (hexact : (outcome env ops (ofItems (own ++ d))).ints = .exact) (index : Nat) :
    ∃ result count own', outcome env ops (ofItems own) = ⟨result, count, ofItems own', .exact⟩ ∧
      outcome env ops (ofItems (own ++ d)) = ⟨result, count, ofItems (own' ++ d), .exact⟩ ∧
      Fits (own' ++ d) ∧
      List.Forall₂ (Step.Below d.reverse)
        (runFrom env id index ops (ofItems (own ++ d))).observations
        (runFrom env id index ops (ofItems own)).observations := by
  induction ops generalizing own index with
  | nil => exact ⟨.ok true, 0, own, rfl, rfl, hfits, .nil⟩
  | cons op ops ih =>
    obtain ⟨hop, hops⟩ := List.forall_mem_cons.mp hops
    obtain ⟨own', log, hown, hdeeper, hfits'⟩ := op.framed_run env d hop own [] hfits
      (not_lacks_apply h) (ints_apply hexact)
    have hholds := holds_append hfits'
    obtain ⟨log₁, hstep⟩ := op.attempt_eq env index (ofItems own)
    obtain ⟨log₂, hstep'⟩ := op.attempt_eq env index (ofItems (own ++ d))
    generalize hr : ((op.run env).apply ⟨ofItems own, [], .exact⟩).1 = r at hown hdeeper
    rw [Machine.on, hown] at hstep
    rw [Machine.on, hdeeper] at hstep'
    by_cases hok : r = .ok true
    · subst hok
      rw [outcome_of_ok hown] at h ⊢
      rw [outcome_of_ok hdeeper, Outcome.next, Ints.exact_and] at hexact
      obtain ⟨result, count, own'', ho, ho', hfits'', hobservations⟩ :=
        ih hops hfits' h hexact (index + 1)
      rw [outcome_of_ok hdeeper, ho, ho']
      refine ⟨result, count + 1, own'', rfl, rfl, hfits'', ?_⟩
      rw [runFrom, runFrom, hstep, hstep']
      exact .cons ⟨rfl, rfl, rfl, own'.reverse, hholds⟩ hobservations
    · rw [outcome_of_stop hown hok, outcome_of_stop hdeeper hok]
      refine ⟨r, 1, own', rfl, rfl, hfits', ?_⟩
      rw [runFrom, runFrom, hstep, hstep']
      rcases r with (f | e) | (_ | _)
      · exact .cons ⟨rfl, rfl, rfl, own'.reverse, hholds⟩ .nil
      · exact .nil
      · exact .cons ⟨rfl, rfl, rfl, own'.reverse, hholds⟩ .nil
      · exact absurd rfl hok

end Deeper

/-- **What lies below a program stays there.** Operations that do not count the items end on a
deeper stack as they end on the stack of their own: after as many operations, with the same result,
and with the same items on top of those that were below. The same holds after each operation on the
way. Only programs that run out of items may go on where there are more; and all sizes on the deeper
stack have to be in the range of the ints that it is kept by, from the first operation to the
last. -/
theorem outcome_frame (env : Environment) {ops : List Operation}
    (hops : ∀ op ∈ ops, op ≠ .code (.shuffle .depth)) {s t : Stack} {own below : List Bytes}
    (hs : s.Holds own) (ht : t.Holds (below ++ own)) (hexact : (outcome env ops t).ints = .exact)
    (h : ¬ Lacks (outcome env ops s).result) :
    (outcome env ops t).result = (outcome env ops s).result ∧
    (outcome env ops t).count = (outcome env ops s).count ∧
    (∃ items, (outcome env ops s).stack.Holds items ∧
      (outcome env ops t).stack.Holds (below ++ items)) ∧
    ∀ index, List.Forall₂
      (fun deeper step => deeper.index = step.index ∧ deeper.operation = step.operation ∧
        deeper.ok = step.ok ∧
        ∃ items, step.stack.Holds items ∧ deeper.stack.Holds (below ++ items))
      (runFrom env id index ops t).observations (runFrom env id index ops s).observations := by
  obtain ⟨rfl, -⟩ := holds_iff.mp hs
  obtain ⟨rfl, hfits⟩ := holds_iff.mp ht
  rw [List.reverse_append] at hfits hexact ⊢
  have hindex (index : Nat) := outcome_append hops hfits h hexact index
  rw [List.reverse_reverse] at hindex
  obtain ⟨result, count, own', hown, hdeeper, hfits', -⟩ := hindex 0
  have hholds := holds_append hfits'
  rw [List.reverse_reverse] at hholds
  rw [hown, hdeeper]
  refine ⟨rfl, rfl, ⟨own'.reverse, hholds⟩, fun index => ?_⟩
  obtain ⟨-, -, -, -, -, -, hobservations⟩ := hindex index
  exact hobservations

/-- A comparison that fails has removed both items; what lies below them stays. -/
theorem outcome_frame_equalVerify :
    let env : Environment := ⟨fun _ item => item, fun _ _ => .ok (false, [])⟩
    let o := outcome env [.push [5], .code .equalVerify, .code .nop] (Stack.ofItems [[6], [9]])
    o.result = .ok false ∧ o.count = 2 ∧ o.stack.toList = [[9]] := by
  intro env o
  let ops : List Operation := [.push [5], .code .equalVerify, .code .nop]
  have hfits : Fits ([[6]] ++ [[9]]) := ⟨⟨by decide, by decide⟩, by decide⟩
  obtain ⟨hs, ht⟩ := holds_append hfits
  have hown : outcome env ops (Stack.ofItems [[6]]) = ⟨.ok false, 2, Stack.empty, .exact⟩ := rfl
  have hlacks : ¬ Lacks (outcome env ops (Stack.ofItems [[6]])).result := by
    rw [hown]
    rintro ⟨f, -, hf⟩
    cases hf
  have h := outcome_frame env (by decide) hs ht rfl hlacks
  rw [hown] at h
  obtain ⟨hresult, hcount, ⟨items, hitems, hdeeper⟩, -⟩ := h
  obtain rfl : [] = items := hitems.toList
  exact ⟨hresult, hcount, hdeeper.toList⟩

end Program

end SpendScript
