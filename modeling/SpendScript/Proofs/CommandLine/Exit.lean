import SpendScript.CommandLine.Report
import SpendScript.Proofs.CommandLine.Arguments
import SpendScript.Proofs.Spend.Independence
import SpendScript.Proofs.Spend.Trace
import SpendScript.Proofs.Wire.RoundTrip

/-!
# Exit codes

The program reads the scripts of an input by itself and runs them against the one output that they
are to unlock. Its exit code is the verdict on the input all the same: an unlocking script that is
given apart from the transaction is as good as one in its place, since no signature covers it.

* `Request.wholeTransaction_eq`: transactions in full;
* `Request.exitCode`, `Request.exit_report`, `Request.exitCode_amount`, `Request.exitCode_le`: the
  code of a request;
* `Tells`, **`Request.tells_verifyInput`**: it is the verdict on the input;
* `exitCodeOf`, `exit_run`, `exitCodeOf_congr`: the code by options;
* **`run_tells_verifyInput`**: the code by arguments.
-/

namespace SpendScript

open Transaction

namespace CommandLine

namespace Request

/-! ## Transactions in full -/

theorem wholeTransaction_of_readable {layout : Layout} (h : layout.Readable) :
    wholeTransaction layout.bytes = .ok layout.transaction := by
  have hreads := Layout.reads_decoder h 0 []
  rw [List.append_nil] at hreads
  rw [wholeTransaction, Reader.ofBytes, hreads]
  rfl

/-- **A transaction is read from its bytes** if it has inputs, and refused if it has none. -/
theorem wholeTransaction_eq {tx : Transaction} {data : Bytes} (hmemory : tx.InMemory)
    (hdata : tx.WrittenAs data) :
    (tx.inputs ≠ [] → wholeTransaction data = .ok tx) ∧
      (tx.inputs = [] → ∃ f, wholeTransaction data = .error f) := by
  obtain ⟨layout, hvalid, rfl, rfl⟩ := hdata
  have hinputs := hmemory.inputs
  have houtputs := hmemory.outputs
  simp only [Layout.transaction, List.length_map, ne_eq, List.map_eq_nil_iff] at hinputs houtputs ⊢
  refine ⟨fun hne => wholeTransaction_of_readable ⟨hvalid, hne, hinputs, houtputs⟩, fun hnil => ?_⟩
  obtain ⟨r, hr⟩ := Layout.apply_decoder_of_no_inputs hvalid (List.length_eq_zero_iff.mpr hnil)
  exact ⟨_, by rw [wholeTransaction, hr]⟩

/-! ## The code of a request -/

variable (p : Primitives) (r : Request)

/-- The exit code of a request: whether its scripts can be read, and what their operations come
to. -/
def exitCode : ExitCode :=
  match Program.operationsOf (r.unlocking ++ r.locking) with
  | .error _ => .parseError
  | .ok ops =>
    match r.spending? with
    | none => .valid
    | some (tx, input) =>
      let env := Spend.environment p ⟨tx, r.index, r.coins input⟩
      match (Program.runFrom env (fun _ => ()) 0 ops Stack.empty).verdict with
      | .ok true => .valid
      | .ok false => .invalid
      | .error _ => .aborted

/-- **Neither the sink nor the trace has a part** in the exit code. -/
theorem exit_report (sink : Sink) (time : Int) (trace : Bool) :
    (r.report p sink time trace).exit = r.exitCode p := by
  unfold report exitCode Program.parse
  cases Program.operationsOf (r.unlocking ++ r.locking) with
  | error e => rfl
  | ok ops =>
    cases r.spending? with
    | none => rfl
    | some spending =>
      obtain ⟨tx, input⟩ := spending
      let env := Spend.environment p ⟨tx, r.index, r.coins input⟩
      have hverdict : (r.execute p stepLine ⟨ops, Program.addressOf p ops⟩ tx input).verdict =
          (Program.runFrom env (fun _ => ()) 0 ops Stack.empty).verdict := by
        rw [execute, Program.run_eq_runFrom]
        exact Program.verdict_runFrom_eq stepLine 0 ops Stack.empty fun _ => ()
      dsimp only [bind, Except.bind, pure, Except.pure]
      rw [hverdict]
      rcases (Program.runFrom env (fun _ => ()) 0 ops Stack.empty).verdict with e | (_ | _) <;> rfl

/-- **The amount has no part in it.** -/
theorem exitCode_amount (amount : Int64) : exitCode p { r with amount } = r.exitCode p := by
  have hcoins (tx : Transaction) (input : Input) :
      Coins.AgreeAt r.index tx (coins { r with amount } input) (r.coins input) := by
    intro spending _
    rw [coins, coins, Coins.find?_add, Coins.find?_add]
    split <;> rfl
  have henv (tx : Transaction) (input : Input) :
      Spend.environment p ⟨tx, r.index, coins { r with amount } input⟩ =
        Spend.environment p ⟨tx, r.index, r.coins input⟩ :=
    Spend.environment_eq_of_coins p (hcoins tx input)
  simp only [exitCode, henv]

/-- **No error leaves the program** if the scripts are not too long. -/
theorem exitCode_le (h : r.unlocking.length + r.locking.length < 14300000) :
    (r.exitCode p).toNat ≤ 2 := by
  unfold exitCode
  cases hops : Program.operationsOf (r.unlocking ++ r.locking) with
  | error e => exact Nat.le_refl 2
  | ok ops =>
    cases r.spending? with
    | none => exact Nat.zero_le 2
    | some spending =>
      obtain ⟨tx, input⟩ := spending
      obtain ⟨ok, hok⟩ := Program.exists_verdict_run p ⟨tx, r.index, r.coins input⟩
        (Program.parse_of_operationsOf hops) h fun _ => ()
      rw [Program.run_eq_runFrom] at hok
      dsimp only at hok ⊢
      rw [hok]
      cases ok <;> decide

end Request

/-! ## Verdicts -/

/-- The exit code tells the verdict; where there is none because of an error, the program is ended
from outside. -/
inductive Tells : Except VerifyError Bool → Nat → Prop
  | accepted : Tells (.ok true) 0
  | refused : Tells (.ok false) 1
  | unread (e : ParseError) : Tells (.error (.parse e)) 2
  | escaped (e : AccessError) : Tells (.error (.access e)) 134

/-- **The exit code of a request is the verdict** on its input, once the unlocking script stands in
the transaction. -/
theorem Request.tells_verifyInput (p : Primitives) (r : Request) {tx tx' : Transaction}
    {input input' : Input} (hspending : r.spending? = some (tx, input))
    (henv : Spend.environment p ⟨tx, r.index, r.coins input⟩ =
      Spend.environment p ⟨tx', r.index, r.coins input⟩)
    (hinput' : tx'.input? r.index = .ok (some input'))
    (hprevious : input'.previous = input.previous) (hscript : input'.script = r.unlocking) :
    Tells (verifyInput p tx' r.index (r.coins input)).1 (r.exitCode p).toNat := by
  have hspent : (r.coins input).find? input'.previous = some ⟨r.amount, r.locking⟩ := by
    rw [coins, Coins.find?_add, if_pos hprevious.symm]
  rw [exitCode]
  cases hops : Program.operationsOf (r.unlocking ++ r.locking) with
  | error e =>
    rw [verifyInput_eq_error hinput' hspent (hscript.symm ▸ hops)]
    exact .unread e
  | ok ops =>
    rw [verifyInput_eq hinput' hspent (hscript.symm ▸ hops), ← henv, hspending]
    dsimp only
    rcases (Program.runFrom (Spend.environment p ⟨tx, r.index, r.coins input⟩) (fun _ => ()) 0 ops
      Stack.empty).verdict with e | (_ | _)
    · exact .escaped e
    · exact .refused
    · exact .accepted

/-! ## The code by options -/

/-- The exit code by options: a request that cannot be carried out is a mistake in its usage. -/
def exitCodeOf (p : Primitives) (o : Options) : ExitCode :=
  match Request.ofOptions o with
  | .error _ => .usageError
  | .ok r => r.exitCode p

theorem exit_run {settings : List Setting} (h : ∀ s ∈ settings, s.Fits) (p : Primitives)
    (time : Int) :
    (run p time (settings.map Setting.argument)).exit =
      exitCodeOf p (settings.foldl Options.set Options.initial) := by
  rw [run, Decision.ofArguments_argument h, exitCodeOf]
  dsimp only
  cases Request.ofOptions (settings.foldl Options.set Options.initial) with
  | error refusal => rfl
  | ok r => exact r.exit_report p _ time _

/-- **Four options determine the exit code.** -/
theorem exitCodeOf_congr (p : Primitives) {o o' : Options} (htx : o.tx = o'.tx)
    (hinput : o.input = o'.input) (hlocking : o.locking = o'.locking)
    (hunlocking : o.unlocking = o'.unlocking) : exitCodeOf p o = exitCodeOf p o' := by
  have hspending : Request.spendingOf o = Request.spendingOf o' := by
    rw [Request.spendingOf, Request.spendingOf, htx, hinput]
  have hofOptions : Request.ofOptions o = (Request.ofOptions o').map fun r =>
      { r with amount := Int64.ofInt o.amount } := by
    unfold Request.ofOptions Request.unlockingOf
    rw [hspending, hlocking, hunlocking, hinput]
    cases Hex.decode o'.locking <;> cases Hex.decode o'.unlocking <;> try rfl
    cases Request.spendingOf o' <;> rfl
  rw [exitCodeOf, exitCodeOf, hofOptions]
  cases Request.ofOptions o' with
  | error refusal => rfl
  | ok r => exact r.exitCode_amount p _

/-- The options give a transaction in full and the two scripts, each in hexadecimal digits; a script
that is not given is empty. -/
structure Options.Gives (o : Options) (tx : Transaction) (locking unlocking : Bytes) : Prop where
  transaction : ∃ data, Hex.decode o.tx = some data ∧ tx.WrittenAs data
  inMemory : tx.InMemory
  locking : Hex.decode o.locking = some locking
  unlocking : Hex.decode o.unlocking = some unlocking

section

variable {o : Options} {tx : Transaction} {locking unlocking : Bytes}

theorem Options.Gives.isEmpty_tx (h : o.Gives tx locking unlocking) : o.tx.isEmpty = false := by
  obtain ⟨data, hdata, hwritten⟩ := h.transaction
  refine Bool.eq_false_iff.mpr fun hempty => ?_
  rw [String.isEmpty_iff.mp hempty] at hdata
  exact hwritten.ne_nil (Option.some.inj hdata).symm

theorem Request.ofOptions_eq (h : o.Gives tx locking unlocking) :
    ofOptions o = (spendingOf o).map fun spending? =>
      ⟨unlockingOf o unlocking spending?, locking, spending?, o.input, Int64.ofInt o.amount⟩ := by
  rw [ofOptions, h.locking, h.unlocking]
  dsimp only
  cases spendingOf o <;> rfl

/-- **The input is found** if the transaction has it. -/
theorem Request.spendingOf_eq_ok (h : o.Gives tx locking unlocking) {input : Input}
    (hinput : tx.input? o.input = .ok (some input)) : spendingOf o = .ok (some (tx, input)) := by
  obtain ⟨data, hdata, hwritten⟩ := h.transaction
  have hne : tx.inputs ≠ [] := by
    intro hnil
    obtain ⟨hpos, hlt, -⟩ := input?_eq_some_iff.mp hinput
    have hcount := tx.toNat_inputCount_le
    rw [hnil, List.length_nil] at hcount
    omega
  rw [spendingOf, h.isEmpty_tx, if_neg Bool.false_ne_true, hdata]
  simp only [(wholeTransaction_eq h.inMemory hwritten).1 hne, hinput]

/-- **It is refused** if the transaction does not have it, whether it has any inputs or not. -/
theorem Request.exists_spendingOf_eq_error (h : o.Gives tx locking unlocking)
    (hrange : ¬ (0 ≤ o.input ∧ o.input < tx.inputCount.toInt)) :
    ∃ refusal, spendingOf o = .error refusal := by
  obtain ⟨data, hdata, hwritten⟩ := h.transaction
  obtain ⟨hread, hunread⟩ := wholeTransaction_eq h.inMemory hwritten
  rw [spendingOf, h.isEmpty_tx, if_neg Bool.false_ne_true, hdata]
  by_cases hnil : tx.inputs = []
  · obtain ⟨f, hf⟩ := hunread hnil
    exact ⟨badTransaction f, by simp only [hf]⟩
  · have hinput : tx.input? o.input = .ok none := if_pos (by omega)
    simp only [hread hnil, hinput]
    exact ⟨_, rfl⟩

/-- **The code by options** that ask for the verdict on an input. -/
theorem exitCodeOf_eq (p : Primitives) (h : o.Gives tx locking unlocking) {input : Input}
    (hinput : tx.input? o.input = .ok (some input)) :
    exitCodeOf p o =
      Request.exitCode p ⟨if o.unlocking.isEmpty then input.script else unlocking, locking,
        some (tx, input), o.input, Int64.ofInt o.amount⟩ := by
  rw [exitCodeOf, Request.ofOptions_eq h, Request.spendingOf_eq_ok h hinput]
  rfl

end

/-- **The exit code is the verdict on the input.** Settings come in any order, and the last one of
each option counts. If the scripts are not too long, there always is a verdict or an error in
reading them. -/
theorem run_tells_verifyInput (p : Primitives) (time : Int) (settings : List Setting)
    (hsettings : ∀ s ∈ settings, s.Fits) :
    let o := settings.foldl Options.set Options.initial
    let exit := (run p time (settings.map Setting.argument)).exit.toNat
    (∀ tx locking unlocking, o.Gives tx locking unlocking →
      (¬ (0 ≤ o.input ∧ o.input < tx.inputCount.toInt) → exit = 3) ∧
      (0 ≤ o.input ∧ o.input < tx.inputCount.toInt →
        ∃ input replaced, tx.input o.input = .ok input ∧
          tx.setScript o.input unlocking = .ok replaced ∧
          let coins := Coins.empty.add input.previous ⟨Int64.ofInt o.amount, locking⟩
          let script := if o.unlocking.isEmpty then input.script else unlocking
          (o.unlocking = "" → Tells (verifyInput p tx o.input coins).1 exit) ∧
          (o.unlocking ≠ "" → Tells (verifyInput p replaced o.input coins).1 exit) ∧
          (script.length + locking.length < 14300000 → exit ≤ 2))) ∧
    ∀ (settings' : List Setting) (time' : Int), (∀ s ∈ settings', s.Fits) →
      let o' := settings'.foldl Options.set Options.initial
      o.tx = o'.tx → o.input = o'.input → o.locking = o'.locking → o.unlocking = o'.unlocking →
      exit = (run p time' (settings'.map Setting.argument)).exit.toNat := by
  intro o exit
  have hexit : exit = (exitCodeOf p o).toNat := congrArg ExitCode.toNat (exit_run hsettings p time)
  refine ⟨fun tx locking unlocking hgives => ⟨fun hrange => ?_, fun hrange => ?_⟩, ?_⟩
  · obtain ⟨refusal, hrefusal⟩ := Request.exists_spendingOf_eq_error hgives hrange
    rw [hexit, exitCodeOf, Request.ofOptions_eq hgives, hrefusal]
    rfl
  · obtain ⟨n, hn⟩ := Int.eq_ofNat_of_zero_le hrange.1
    have hlength : n < tx.inputs.length := lt_of_lt_inputCount (hn ▸ hrange.2)
    have hinput : tx.input o.input = .ok tx.inputs[n] := hn ▸ elementAt_eq_ok hlength
    have hinput? : tx.input? o.input = .ok (some tx.inputs[n]) :=
      input?_eq_some_iff.mpr ⟨hrange.1, hrange.2, hinput⟩
    obtain ⟨replaced, hreplaced⟩ : ∃ replaced, tx.setScript o.input unlocking = .ok replaced :=
      hn ▸ ⟨_, updateInput_eq_ok hlength _⟩
    let request (unlocking : Bytes) : Request :=
      ⟨unlocking, locking, some (tx, tx.inputs[n]), o.input, Int64.ofInt o.amount⟩
    refine ⟨tx.inputs[n], replaced, hinput, hreplaced, fun hempty => ?_, fun hne => ?_,
      fun hshort => ?_⟩
    · rw [hexit, exitCodeOf_eq p hgives hinput?, if_pos (String.isEmpty_iff.mpr hempty)]
      exact (request _).tells_verifyInput p rfl rfl hinput? rfl rfl
    · have hother : replaced.input? o.input =
          .ok (some { tx.inputs[n] with script := unlocking }) := by
        rw [input?_eq_some_iff, ← (EqButScripts.of_setScript hreplaced).inputCount_eq]
        exact ⟨hrange.1, hrange.2, input_of_setScript hreplaced hinput⟩
      rw [hexit, exitCodeOf_eq p hgives hinput?, if_neg (mt String.isEmpty_iff.mp hne)]
      exact (request unlocking).tells_verifyInput p rfl
        (Spend.environment_eq_of_setScript p hreplaced) hother rfl rfl
    · rw [hexit, exitCodeOf_eq p hgives hinput?]
      exact (request _).exitCode_le p hshort
  · intro settings' time' hsettings' o' htx hinput hlocking hunlocking
    rw [hexit, exitCodeOf_congr p htx hinput hlocking hunlocking, exit_run hsettings' p time']

/-- A transaction of one input: with its own script, with another one in its place, and asked for an
input that it does not have. -/
theorem run_tells_verifyInput_one :
    let tx (script : Bytes) : Transaction := ⟨1, [⟨OutPoint.null, script, 0xFFFFFFFF⟩], [], 0⟩
    let coins := Coins.empty.add OutPoint.null ⟨-1, [0x87]⟩
    let text := "0100000001" ++ String.ofList (List.replicate 64 '0') ++
      "ffffffff0151ffffffff0000000000"
    let exit (settings : List Setting) : Nat :=
      (run Primitives.standard 0 (settings.map Setting.argument)).exit.toNat
    Tells (verifyInput Primitives.standard (tx [0x51]) 0 coins).1
        (exit [.trace, .tx text, .locking "87", .amount (-1)]) ∧
      Tells (verifyInput Primitives.standard (tx [0x51, 0x51]) 0 coins).1
        (exit [.unlocking "5151", .tx text, .locking "87", .amount (-1), .quiet]) ∧
      exit [.tx text, .locking "87", .input 1] = 3 ∧
      exit [.trace, .tx text, .locking "87", .amount (-1)] =
        exit [.amount 5, .quiet, .locking "87", .tx text] := by
  intro tx coins text exit
  have hwritten : (tx [0x51]).WrittenAs (tx [0x51]).encode :=
    ⟨.ofTransaction (tx [0x51]), by simp [tx, Layout.Valid, Layout.numbers, Layout.ofTransaction,
      CompactSize.Form.shortest, CompactSize.Form.Holds], rfl, Layout.bytes_ofTransaction _⟩
  have hdecode : Hex.decode text = some (tx [0x51]).encode := by decide
  have hmemory : (tx [0x51]).InMemory := ⟨by decide, by decide, by decide, by decide⟩
  have hgives {o : Options} {unlocking : Bytes} (htx : o.tx = text) (hlocking : o.locking = "87")
      (hunlocking : Hex.decode o.unlocking = some unlocking) :
      o.Gives (tx [0x51]) [0x87] unlocking :=
    ⟨⟨_, htx ▸ hdecode, hwritten⟩, hmemory, hlocking ▸ by decide, hunlocking⟩
  have hfits {settings : List Setting} (h : settings.all (·.Fits) = true) :
      ∀ s ∈ settings, s.Fits := by
    simpa using h
  obtain ⟨hown, hagain⟩ := run_tells_verifyInput Primitives.standard 0
    [.trace, .tx text, .locking "87", .amount (-1)] (hfits (by decide))
  obtain ⟨hother, -⟩ := run_tells_verifyInput Primitives.standard 0
    [.unlocking "5151", .tx text, .locking "87", .amount (-1), .quiet] (hfits (by decide))
  obtain ⟨hnone, -⟩ := run_tells_verifyInput Primitives.standard 0
    [.tx text, .locking "87", .input 1] (hfits (by decide))
  obtain ⟨_, _, hinput, -, hown, -⟩ := (hown _ _ _ (hgives rfl rfl rfl)).2 (by decide)
  cases hinput
  obtain ⟨_, _, hinput, hreplaced, -, hother⟩ :=
    (hother _ _ [0x51, 0x51] (hgives rfl rfl (by decide))).2 (by decide)
  cases hinput
  cases hreplaced
  refine ⟨hown rfl, hother.1 (by decide), ?_, ?_⟩
  · exact (hnone _ _ _ (hgives rfl rfl rfl)).1 (by decide)
  · exact hagain [.amount 5, .quiet, .locking "87", .tx text] 0 (hfits (by decide)) rfl rfl rfl rfl

end CommandLine

end SpendScript
