import SpendScript.Proofs.Script.Overflow
import SpendScript.Proofs.Spend.Growth

/-!
# Payments to a key hash

A payment to a key hash may be spent with the key and a signature by it, and with nothing else. The
unlocking script may be any program that leaves the two on top.

* `payToKeyHash`, `payToKeyHashOperations`, `operationsOf_payToKeyHash`;
* `stackAfter_payToKeyHash_cons`, **`unlocks_payToKeyHash_iff`**: what the locking script asks of
  a stack; `accepts_payToKeyHash_iff`: what it asks of a program;
* **`verifyInput_payToKeyHash`**: when an input may spend such an output;
* `verifyInput_payToKeyHash_overflow`: a script that is too long for a verdict.
-/

namespace SpendScript

open Program Stack

/-- The locking script of a payment to the key with the given hash. -/
def payToKeyHash (keyHash : Bytes) : Bytes := [0x76, 0xa9, 0x14] ++ keyHash ++ [0x88, 0xac]

/-- The operations of the locking script. -/
def payToKeyHashOperations (keyHash : Bytes) : List Operation :=
  [.code (.shuffle .dup), .code (.digest .hash160), .push keyHash, .code .equalVerify,
    .code .checkSig]

variable {keyHash : Bytes}

theorem inScript_payToKeyHash (h : keyHash.length = 20) :
    ∀ op ∈ payToKeyHashOperations keyHash, op.InScript := by
  intro op hop
  simp only [payToKeyHashOperations, List.mem_cons, List.not_mem_nil, or_false] at hop
  rcases hop with rfl | rfl | rfl | rfl | rfl
  · trivial
  · trivial
  · exact ⟨by omega, by omega⟩
  · trivial
  · trivial

theorem bytesOf_payToKeyHash (h : keyHash.length = 20) :
    Operation.bytesOf (payToKeyHashOperations keyHash) = payToKeyHash keyHash := by
  have hdup : (Opcode.shuffle .dup).byte = 0x76 := by decide
  have hdigest : (Opcode.digest .hash160).byte = 0xa9 := by decide
  have hequal : Opcode.equalVerify.byte = 0x88 := by decide
  have hcheck : Opcode.checkSig.byte = 0xac := by decide
  simp [payToKeyHashOperations, payToKeyHash, Operation.bytes, h, hdup, hdigest, hequal, hcheck]

theorem operationsOf_payToKeyHash (h : keyHash.length = 20) :
    operationsOf (payToKeyHash keyHash) = .ok (payToKeyHashOperations keyHash) :=
  (operationsOf_eq_ok_iff _ _).mpr ⟨inScript_payToKeyHash h, bytesOf_payToKeyHash h⟩

/-! ## What the locking script asks of a stack -/

section

variable {env : Environment} (henv : env.Answers) {α : Type} {observe : Step → α} {index : Nat}
include henv

/-- One operation that succeeds in a run with exact ints. -/
theorem Operation.exact_stackAfter {op : Operation} {ops : List Operation}
    {items items' : List Bytes} (hitems : Fits items)
    (h : (runFrom env observe index (op :: ops) (ofItems items)).ints = .exact)
    (hop : op.stackAfter env (ofItems items) = some (ofItems items')) :
    Fits items' ∧ (runFrom env observe (index + 1) ops (ofItems items')).ints = .exact :=
  Program.exact_stackAfter henv [op] hitems h (by rw [stackAfter_cons, hop]; rfl)

/-- **The locking script compares the hash of the topmost item**, and goes on to the check of the
signature with the stack it began with. -/
theorem stackAfter_payToKeyHash_cons {key : Bytes} {items : List Bytes}
    (hitems : Fits (key :: items)) (h : (runFrom env observe index (payToKeyHashOperations keyHash)
      (ofItems (key :: items))).ints = .exact) :
    stackAfter env (payToKeyHashOperations keyHash) (ofItems (key :: items)) =
      if env.digest .hash160 key = keyHash then
        (Operation.code .checkSig).stackAfter env (ofItems (key :: items))
      else none := by
  let hash := env.digest .hash160 key
  have hdup : (Operation.code (.shuffle .dup)).stackAfter env (ofItems (key :: items)) =
      some (ofItems (key :: key :: items)) := Operation.stackAfter_dup env hitems
  obtain ⟨hcopied, h⟩ := Operation.exact_stackAfter henv hitems h hdup
  have hdigest :
      (Operation.code (.digest .hash160)).stackAfter env (ofItems (key :: key :: items)) =
        some (ofItems (hash :: key :: items)) := Operation.stackAfter_digest env hcopied .hash160
  obtain ⟨hhashed, h⟩ := Operation.exact_stackAfter henv hcopied h hdigest
  have hpush : (Operation.push keyHash).stackAfter env (ofItems (hash :: key :: items)) =
      some (ofItems (keyHash :: hash :: key :: items)) := Operation.stackAfter_push env keyHash _
  obtain ⟨hpushed, -⟩ := Operation.exact_stackAfter henv hhashed h hpush
  rw [payToKeyHashOperations, stackAfter_cons, hdup, Option.bind_some, stackAfter_cons, hdigest,
    Option.bind_some, stackAfter_cons, hpush, Option.bind_some, stackAfter_cons,
    Operation.stackAfter_equalVerify env hpushed]
  change (if hash = keyHash then some (ofItems (key :: items)) else none).bind
    (stackAfter env [.code .checkSig]) = if hash = keyHash then _ else none
  by_cases hkey : hash = keyHash
  · rw [if_pos hkey, if_pos hkey, Option.bind_some, stackAfter_cons]
    exact Option.bind_fun_some _
  · rw [if_neg hkey, if_neg hkey, Option.bind_none]

/-- **A stack unlocks** exactly if its two topmost items are a signature and, above it, the key
that has the hash and made the signature. -/
theorem unlocks_payToKeyHash_iff {items : List Bytes} (hitems : Fits items)
    (h : (runFrom env observe index (payToKeyHashOperations keyHash)
      (ofItems items)).ints = .exact) :
    (∃ stack', stackAfter env (payToKeyHashOperations keyHash) (ofItems items) = some stack' ∧
        (finish stack').1 = .ok true) ↔
      ∃ below signature key log, (ofItems items).toList = below ++ [signature, key] ∧
        env.digest .hash160 key = keyHash ∧ env.check signature key = .ok (true, log) := by
  rw [toList_ofItems hitems.placed]
  constructor
  · rintro ⟨stack', hrun, htrue⟩
    match items with
    | [] => cases hrun
    | [key] =>
      rw [stackAfter_payToKeyHash_cons henv hitems h,
        Operation.stackAfter_checkSig_short env (by simp) hitems, ite_self] at hrun
      cases hrun
    | key :: signature :: below =>
      obtain ⟨⟨answer, log⟩, hcheck⟩ := henv signature key
      rw [stackAfter_payToKeyHash_cons henv hitems h,
        Operation.stackAfter_checkSig env hitems hcheck] at hrun
      split at hrun
      · next hkey =>
        cases hrun
        rw [finish_ofItems_cons (hitems.tail.replace (length_truthItem_lt answer)),
          isTruthy_truthItem] at htrue
        cases Except.ok.inj htrue
        exact ⟨below.reverse, signature, key, log, by simp, hkey, hcheck⟩
      · cases hrun
  · rintro ⟨below, signature, key, log, hlist, hkey, hcheck⟩
    obtain rfl : items = key :: signature :: below.reverse := by
      rw [← List.reverse_reverse items, hlist]
      simp
    have hleft : Fits (truthItem true :: below.reverse) :=
      hitems.tail.replace (length_truthItem_lt true)
    refine ⟨ofItems (truthItem true :: below.reverse), ?_, ?_⟩
    · rw [stackAfter_payToKeyHash_cons henv hitems h, if_pos hkey,
        Operation.stackAfter_checkSig env hitems hcheck]
    · rw [finish_ofItems_cons hleft, isTruthy_truthItem]

/-- **A program that ends in the locking script** is accepted, in a run with exact ints, exactly if
what comes before leaves a stack that unlocks. -/
theorem accepts_payToKeyHash_iff {before : List Operation}
    (h : (runFrom env observe 0 (before ++ payToKeyHashOperations keyHash)
      Stack.empty).ints = .exact) :
    Accepts env (before ++ payToKeyHashOperations keyHash) ↔
      ∃ stack below signature key log, stackAfter env before Stack.empty = some stack ∧
        stack.toList = below ++ [signature, key] ∧
        env.digest .hash160 key = keyHash ∧ env.check signature key = .ok (true, log) := by
  -- wherever the operations before lead, items fit and the rest of the run has exact ints
  have hleft {stack : Stack} (hstack : stackAfter env before Stack.empty = some stack) :=
    guarded_stackAfter Ints.guard_exact henv ⟨[], rfl, fits_nil⟩ h hstack
  rw [Accepts, stackAfter_append]
  constructor
  · rintro ⟨stack', hrun, hfinish⟩
    obtain ⟨stack, hstack, hrun⟩ := Option.bind_eq_some_iff.mp hrun
    obtain ⟨⟨items, rfl, hitems⟩, hrest⟩ := hleft hstack
    obtain ⟨below, signature, key, log, hunlocks⟩ :=
      (unlocks_payToKeyHash_iff henv hitems hrest).mp ⟨stack', hrun, hfinish⟩
    exact ⟨_, below, signature, key, log, hstack, hunlocks⟩
  · rintro ⟨stack, below, signature, key, log, hstack, hunlocks⟩
    obtain ⟨⟨items, rfl, hitems⟩, hrest⟩ := hleft hstack
    obtain ⟨stack', hrun, hfinish⟩ :=
      (unlocks_payToKeyHash_iff henv hitems hrest).mpr ⟨below, signature, key, log, hunlocks⟩
    exact ⟨stack', Option.bind_eq_some_iff.mpr ⟨_, hstack, hrun⟩, hfinish⟩

end

/-! ## The verdict -/

section

variable {p : Primitives} {tx : Transaction} {index : Int} {coins : Coins} {input : Input}
  {spent : Output} {unlocking : Program}

/-- **An input may spend a payment to a key hash** exactly if its script leaves two items or more,
the topmost of them the key and the next one its signature of the spending. Otherwise it is
refused. This is so as long as the ints of the stack are exact, which they are if the script is not
too long; the two scripts can be read in any case, and there is no verdict only if the run of the
program comes to an error. -/
theorem verifyInput_payToKeyHash (hin : tx.input? index = .ok (some input))
    (hspent : coins.find? input.previous = some spent) (hlength : keyHash.length = 20)
    (hlocking : spent.script = payToKeyHash keyHash)
    (hunlocking : Program.parse p input.script [] = .ok unlocking) :
    ∃ program, Program.parse p input.script spent.script = .ok program ∧
      let run := program.run (Spend.environment p ⟨tx, index, coins⟩) fun _ => ()
      (verifyInput p tx index coins).1 = run.verdict.mapError .access ∧
      (input.script.length + spent.script.length < 14300000 → run.ints = .exact) ∧
      (run.ints = .exact →
        ∃ verdict, (verifyInput p tx index coins).1 = .ok verdict ∧
          (verdict = true ↔ ∃ stack below der hashType key digest log,
            stackAfter (Spend.environment p ⟨tx, index, coins⟩) unlocking.operations Stack.empty =
              some stack ∧
            stack.toList = below ++ [der ++ [hashType], key] ∧
            (p.hash160 key).bytes = keyHash ∧
            SignatureHash.hash p tx index spent.script hashType.toUInt32 = .ok (digest, log) ∧
            (p.verify key der digest).1 = true)) := by
  obtain ⟨hops, -⟩ := Program.parse_eq_ok_iff.mp hunlocking
  rw [List.append_nil] at hops
  have hboth : operationsOf (input.script ++ spent.script) =
      .ok (unlocking.operations ++ payToKeyHashOperations keyHash) :=
    (operationsOf_append_eq_ok_iff hops).mpr
      ⟨_, hlocking ▸ operationsOf_payToKeyHash hlength, rfl⟩
  let ops := unlocking.operations ++ payToKeyHashOperations keyHash
  have hparse : Program.parse p input.script spent.script = .ok ⟨ops, addressOf p ops⟩ :=
    parse_of_operationsOf hboth
  have hverify : (verifyInput p tx index coins).1 = _ := verifyInput_eq hin hspent hboth
  refine ⟨⟨ops, addressOf p ops⟩, hparse, by rw [hverify, run_eq_runFrom],
    fun hshort => ints_run p _ hparse hshort _, fun hexact => ?_⟩
  have henv := Spend.answers_environment p ⟨tx, index, coins⟩
  have hknown : Spend.output? ⟨tx, index, coins⟩ = some spent := by
    simp only [Spend.output?, hin, hspent]
  have hasked := Spend.exists_check_iff p ⟨tx, index, coins⟩ hknown
  rw [run_eq_runFrom] at hexact
  obtain ⟨verdict, hverdict⟩ :
      ∃ verdict, (runFrom (Spend.environment p ⟨tx, index, coins⟩) (fun _ => ()) 0 ops
        Stack.empty).verdict = .ok verdict :=
    guarded_runFrom Ints.guard_exact henv ⟨[], rfl, fits_nil⟩ hexact
  have htrue : verdict = true ↔ Accepts (Spend.environment p ⟨tx, index, coins⟩) ops := by
    rw [Accepts, ← verdict_runFrom_eq_true_iff 0 ops Stack.empty, hverdict, Except.ok.injEq]
  refine ⟨verdict, hverify.trans (congrArg (Except.mapError _) hverdict),
    htrue.trans ((accepts_payToKeyHash_iff henv hexact).trans ?_)⟩
  constructor
  · rintro ⟨stack, below, signature, key, log, hstack, hlist, hkey, hcheck⟩
    obtain ⟨der, hashType, digest, log', rfl, hdigest, hsigned⟩ :=
      (hasked signature key).mp ⟨log, hcheck⟩
    exact ⟨stack, below, der, hashType, key, digest, log', hstack, hlist, hkey, hdigest, hsigned⟩
  · rintro ⟨stack, below, der, hashType, key, digest, log, hstack, hlist, hkey, hdigest, hsigned⟩
    obtain ⟨log', hcheck⟩ :=
      (hasked _ key).mpr ⟨der, hashType, digest, log, rfl, hdigest, hsigned⟩
    exact ⟨stack, below, _, key, log', hstack, hlist, hkey, hcheck⟩

end

/-- Two pushes, of the signature and of the key, spend such an output. -/
theorem verifyInput_payToKeyHash_pushes :
    let p : Primitives := ⟨fun _ => Digest.zero, fun _ => Digest.zero,
      fun key der _ => (key == [2] && der == [0x30], [])⟩
    let spend := Spend.sole [2, 0x30, 1, 1, 2] (payToKeyHash (List.replicate 20 0))
    (verifyInput p spend.transaction spend.input spend.coins).1 = .ok true := by
  intro p spend
  obtain ⟨input, hin, hscript, hspent⟩ := Spend.exists_input_sole [2, 0x30, 1, 1, 2]
    (payToKeyHash (List.replicate 20 0))
  have hops : operationsOf ([2, 0x30, 1, 1, 2] ++ []) = .ok [.push [0x30, 1], .push [2]] :=
    (operationsOf_eq_ok_iff _ _).mpr ⟨by simp [Operation.InScript], by decide⟩
  have hparse : Program.parse p input.script [] = .ok ⟨[.push [0x30, 1], .push [2]], ""⟩ := by
    rw [hscript]
    exact Program.parse_eq_ok_iff.mpr ⟨hops, by decide⟩
  obtain ⟨program, -, -, hints, hlaw⟩ :=
    verifyInput_payToKeyHash hin hspent List.length_replicate rfl hparse
  obtain ⟨verdict, hverdict, hiff⟩ := hlaw (hints (by rw [hscript]; decide))
  obtain ⟨⟨digest, log⟩, hdigest⟩ := SignatureHash.exists_hash p spend.transaction spend.input
    (payToKeyHash (List.replicate 20 0)) 1
  have hstack : (ofItems [[2], [0x30, 1]]).toList = [[0x30, 1], [2]] :=
    toList_ofItems ⟨by decide, by decide⟩
  rw [hverdict, hiff.mpr]
  exact ⟨ofItems [[2], [0x30, 1]], [], [0x30], 1, [2], digest, log, rfl, hstack, rfl, hdigest, rfl⟩

/-- Copies of two pushes that fill the stack, the removal of one item, and then the two pushes: the
script can be read on its own, but there is no verdict. -/
theorem verifyInput_payToKeyHash_overflow :
    let p := Primitives.standard
    let item : Bytes := List.replicate 75 7
    let unlocking : Bytes := 75 :: item ++ 75 :: item ++ List.replicate 14316558 0x6e ++
      [0x75, 2, 0x30, 1, 1, 2]
    let spend := Spend.sole unlocking (payToKeyHash (List.replicate 20 0))
    (∃ program, Program.parse p unlocking [] = .ok program) ∧
      (verifyInput p spend.transaction spend.input spend.coins).1 =
        .error (.access (.badLength (-2147483521))) := by
  intro p item unlocking spend
  have hitem : item.length = 75 := List.length_replicate
  let tail : List Operation := [.push [0x30, 1], .push [2]]
  have hbytes : Operation.bytesOf (copies item 14316558 ++ .code (.shuffle .drop) :: tail) =
      unlocking := by
    have hpush : (Operation.push item).bytes = 75 :: item := by
      rw [Operation.bytes, hitem]
      rfl
    have htail : Operation.bytesOf (.code (.shuffle .drop) :: tail) = [0x75, 2, 0x30, 1, 1, 2] := by
      decide
    rw [Operation.bytesOf_append, htail, bytesOf_copies, hpush, ← List.append_assoc]
  have hops : operationsOf unlocking =
      .ok (copies item 14316558 ++ .code (.shuffle .drop) :: tail) := by
    refine (operationsOf_eq_ok_iff _ _).mpr ⟨List.forall_mem_append.mpr ⟨?_, ?_⟩, hbytes⟩
    · exact inScript_copies ⟨by omega, by omega⟩
    · simp [tail, Operation.InScript]
  have hparse : ∃ program, Program.parse p unlocking [] = .ok program :=
    ⟨_, parse_of_operationsOf (by rwa [List.append_nil])⟩
  obtain ⟨input, hin, hscript, hspent⟩ := Spend.exists_input_sole unlocking
    (payToKeyHash (List.replicate 20 0))
  have hboth := (operationsOf_append_eq_ok_iff hops).mpr
    ⟨_, operationsOf_payToKeyHash (List.length_replicate (n := 20) (a := 0)), rfl⟩
  rw [← hscript, List.append_assoc, List.cons_append] at hboth
  have hverdict := (runFrom_copies_drop (Spend.environment p spend) (fun _ => ()) item 14316558
    (by omega) (by decide) (by rw [hitem]; decide) (by rw [hitem]; decide) 0
    (tail ++ payToKeyHashOperations (List.replicate 20 0))).1
  rw [hitem] at hverdict
  refine ⟨hparse, (verifyInput_eq hin hspent hboth).trans ?_⟩
  exact congrArg (Except.mapError _) hverdict

end SpendScript
