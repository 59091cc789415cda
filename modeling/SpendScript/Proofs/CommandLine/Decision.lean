import Mathlib.Data.List.Forall2
import SpendScript.Proofs.CommandLine.Grammar

/-!
# The first decisive argument

Arguments are read from left to right, and the first one that makes no setting decides what becomes
of the program, whatever follows it. If all of them make settings, the last one for an option
counts.

* `Value`, `Setting.value`, `Options.value`: what options hold;
* `Setting.lastFor?`, **`Options.value_foldl_set`**: the last setting counts;
* `Decision.outcome`, **`Decision.outcome_ofArguments`**: the first decisive argument counts;
* **`Decision.ofArguments_eq_proceed_iff`**, `Decision.ofArguments_eq_proceed_iff_value`: settings
  are made one after the other;
* **`Decision.ofArguments_decisive`**: both together.
-/

namespace SpendScript.CommandLine

namespace Argument

theorem exists_key_iff {arguments : List String} {settings : List Setting}
    (h : List.Forall₂ Sets arguments settings) {key : Key} :
    (∃ s ∈ settings, s.key = key) ↔
      ∃ argument ∈ arguments, ∃ value, Spells argument key.name value := by
  induction h with
  | nil => simp
  | cons hs _ ih => rw [List.exists_mem_cons_iff, List.exists_mem_cons_iff, hs.key_eq_iff, ih]

end Argument

/-! ## What options hold -/

/-- What an option holds. -/
inductive Value
  | number (n : Int)
  | word (text : String)
  | switch (on : Bool)
  deriving DecidableEq, Repr

def Setting.value : Setting → Value
  | .amount v | .input v => .number v
  | .locking word | .logfile word | .tx word | .unlocking word => .word word
  | .quiet | .trace => .switch true

/-- The last of the settings that is for the option. -/
def Setting.lastFor? (key : Key) (settings : List Setting) : Option Setting :=
  (settings.filter (·.key = key)).getLast?

theorem Setting.lastFor?_cons (key : Key) (s : Setting) (settings : List Setting) :
    lastFor? key (s :: settings) =
      (lastFor? key settings).or (if s.key = key then some s else none) := by
  rw [lastFor?, lastFor?, List.filter_cons]
  by_cases hkey : s.key = key
  · simp only [hkey, decide_true, if_true, List.getLast?_cons]
    cases (settings.filter (·.key = key)).getLast? <;> rfl
  · simp [hkey]

theorem Setting.lastFor?_eq_none_iff {key : Key} {settings : List Setting} :
    lastFor? key settings = none ↔ ∀ s ∈ settings, s.key ≠ key := by
  simp [lastFor?]

theorem Setting.of_lastFor? {key : Key} {settings : List Setting} {s : Setting}
    (h : lastFor? key settings = some s) : s ∈ settings ∧ s.key = key := by
  simpa using List.mem_of_getLast? h

theorem Setting.value_of_isSwitch {s : Setting} (h : s.key.isSwitch = true) :
    s.value = .switch true := by
  cases s with
  | quiet | trace => rfl
  | _ => cases h

namespace Options

def value (o : Options) : Key → Value
  | .amount => .number o.amount
  | .input => .number o.input
  | .locking => .word o.locking
  | .logfile => .word o.logfile
  | .quiet => .switch o.quiet
  | .trace => .switch o.trace
  | .tx => .word o.tx
  | .unlocking => .word o.unlocking

theorem ext_value {o o' : Options} (h : ∀ key, o.value key = o'.value key) : o = o' := by
  obtain ⟨amount, input, locking, logfile, quiet, trace, tx, unlocking⟩ := o
  obtain rfl := Value.number.inj (h .amount)
  obtain rfl := Value.number.inj (h .input)
  obtain rfl := Value.word.inj (h .locking)
  obtain rfl := Value.word.inj (h .logfile)
  obtain rfl := Value.switch.inj (h .quiet)
  obtain rfl := Value.switch.inj (h .trace)
  obtain rfl := Value.word.inj (h .tx)
  obtain rfl := Value.word.inj (h .unlocking)
  rfl

/-- A setting changes the option that it is for, and no other. -/
theorem value_set (o : Options) (s : Setting) (key : Key) :
    (o.set s).value key = if s.key = key then s.value else o.value key := by
  cases s <;> cases key <;> rfl

/-- **The last setting counts**, and what was there before if there is none. -/
theorem value_foldl_set (o : Options) (settings : List Setting) (key : Key) :
    (settings.foldl set o).value key =
      ((Setting.lastFor? key settings).map Setting.value).getD (o.value key) := by
  induction settings generalizing o with
  | nil => rfl
  | cons s settings ih =>
    rw [List.foldl_cons, ih, value_set, Setting.lastFor?_cons]
    cases Setting.lastFor? key settings with
    | some last => rfl
    | none => split <;> rfl

/-- A switch is on if and only if a setting is for it. -/
theorem value_eq_on_iff {key : Key} (hswitch : key.isSwitch = true) (settings : List Setting) :
    ((Setting.lastFor? key settings).map Setting.value).getD (initial.value key) = .switch true ↔
      ∃ s ∈ settings, s.key = key := by
  cases hlast : Setting.lastFor? key settings with
  | none =>
    have hinitial : initial.value key ≠ .switch true := by cases key <;> decide
    refine iff_of_false hinitial ?_
    rintro ⟨s, hs, hkey⟩
    exact Setting.lastFor?_eq_none_iff.mp hlast s hs hkey
  | some s =>
    obtain ⟨hs, rfl⟩ := Setting.of_lastFor? hlast
    exact iff_of_true (Setting.value_of_isSwitch hswitch) ⟨s, hs, rfl⟩

end Options

/-! ## Runs -/

namespace Decision

def outcome : Decision → Outcome
  | .proceed _ => .proceed
  | .help | .version => .exit
  | .unknown _ | .refused _ _ => .error

theorem exists_proceed_iff (decision : Decision) :
    (∃ o, decision = .proceed o) ↔ decision.outcome = .proceed := by
  cases decision <;> simp [outcome]

/-- **The first argument that decides** what becomes of the program has the last word. -/
theorem outcome_ofArguments (o : Options) (arguments : List String) :
    (ofArguments o arguments).outcome =
      (arguments.findSome? fun a => (Argument.ofText a).outcome?).getD .proceed := by
  induction arguments generalizing o with
  | nil => rfl
  | cons a arguments ih =>
    rw [ofArguments, List.findSome?_cons]
    cases Argument.ofText a with
    | setting s => exact ih (o.set s)
    | _ => rfl

/-- **Settings are made one after the other** if all arguments make one. -/
theorem ofArguments_eq_proceed_iff {o o' : Options} {arguments : List String} :
    ofArguments o arguments = .proceed o' ↔
      ∃ settings, List.Forall₂ Argument.Sets arguments settings ∧
        settings.foldl Options.set o = o' := by
  induction arguments generalizing o with
  | nil => simp [ofArguments]
  | cons a arguments ih =>
    rw [ofArguments]
    constructor
    · intro h
      cases ha : Argument.ofText a with
      | setting s =>
        rw [ha] at h
        obtain ⟨settings, hsets, rfl⟩ := ih.mp h
        exact ⟨s :: settings, .cons (Argument.ofText_eq_setting_iff.mp ha) hsets, rfl⟩
      | _ =>
        rw [ha] at h
        cases h
    · rintro ⟨_, hsets, rfl⟩
      cases hsets with
      | cons hs hsets =>
        rw [Argument.ofText_eq_setting_iff.mpr hs]
        exact ih.mpr ⟨_, hsets, rfl⟩

/-- What the options hold if all arguments make settings. -/
theorem ofArguments_eq_proceed_iff_value {o o' : Options} {arguments : List String} :
    ofArguments o arguments = .proceed o' ↔
      ∃ settings, List.Forall₂ Argument.Sets arguments settings ∧
        ∀ key, o'.value key = ((Setting.lastFor? key settings).map Setting.value).getD
          (o.value key) := by
  refine ofArguments_eq_proceed_iff.trans <|
    exists_congr fun settings => and_congr_right fun _ => ?_
  constructor
  · rintro rfl key
    exact Options.value_foldl_set o settings key
  · intro h
    refine Options.ext_value fun key => ?_
    rw [h key, Options.value_foldl_set]

/-- An outcome other than to go on is that of the first decisive argument. -/
theorem outcome_ofArguments_eq_iff {o : Options} {arguments : List String} {outcome : Outcome}
    (hne : outcome ≠ .proceed) :
    (ofArguments o arguments).outcome = outcome ↔
      ∃ before argument after, arguments = before ++ argument :: after ∧
        (∀ a ∈ before, ¬ Argument.IsDecisive a) ∧
        (Argument.ofText argument).outcome? = some outcome := by
  have hfirst : (ofArguments o arguments).outcome = outcome ↔
      arguments.findSome? (fun a => (Argument.ofText a).outcome?) = some outcome := by
    rw [outcome_ofArguments]
    cases arguments.findSome? fun a => (Argument.ofText a).outcome? with
    | none => exact iff_of_false hne.symm (by simp)
    | some first => exact Option.some_inj.symm
  rw [hfirst, List.findSome?_eq_some_iff]
  simp only [← Argument.outcome?_ofText_eq_none_iff, and_comm]

theorem outcome_ofArguments_eq_proceed_iff {o : Options} {arguments : List String} :
    (ofArguments o arguments).outcome = .proceed ↔
      ∀ a ∈ arguments, ¬ Argument.IsDecisive a := by
  have hnone : (ofArguments o arguments).outcome = .proceed ↔
      arguments.findSome? (fun a => (Argument.ofText a).outcome?) = none := by
    rw [outcome_ofArguments]
    cases hfirst : arguments.findSome? fun a => (Argument.ofText a).outcome? with
    | none => exact iff_of_true rfl rfl
    | some first =>
      obtain ⟨a, -, ha⟩ := List.exists_of_findSome?_eq_some hfirst
      refine iff_of_false (fun h : first = .proceed => ?_) (Option.some_ne_none first)
      rw [h] at ha
      cases hargument : Argument.ofText a <;> rw [hargument] at ha <;> cases ha
  rw [hnone, List.findSome?_eq_none_iff]
  simp only [Argument.outcome?_ofText_eq_none_iff]

/-- **The first decisive argument counts.** It is the first one from the left that asks for help or
for the version, names no option, or has a value that its option does not take. What follows it has
no part in the outcome. If there is none, every option holds the value of the last argument that
sets it, or else its initial value, so that a switch is on if and only if it is named. -/
theorem ofArguments_decisive (arguments : List String) :
    ((ofArguments .initial arguments).outcome = .exit ↔
      ∃ before argument after, arguments = before ++ argument :: after ∧
        (∀ a ∈ before, ¬ Argument.IsDecisive a) ∧ Argument.IsRequest argument) ∧
    ((ofArguments .initial arguments).outcome = .error ↔
      ∃ before argument after, arguments = before ++ argument :: after ∧
        (∀ a ∈ before, ¬ Argument.IsDecisive a) ∧
        Argument.IsDecisive argument ∧ ¬ Argument.IsRequest argument) ∧
    ((∃ o, ofArguments .initial arguments = .proceed o) ↔
      ∀ a ∈ arguments, ¬ Argument.IsDecisive a) ∧
    (∀ o, ofArguments .initial arguments = .proceed o ↔
      ∃ settings, List.Forall₂ Argument.Sets arguments settings ∧
        ∀ key, o.value key = ((Setting.lastFor? key settings).map Setting.value).getD
          (Options.initial.value key)) ∧
    (∀ o key, ofArguments .initial arguments = .proceed o → key.isSwitch = true →
      (o.value key = .switch true ↔
        ∃ argument ∈ arguments, ∃ value, Argument.Spells argument key.name value)) := by
  refine ⟨?_, ?_, ?_, fun _ => ofArguments_eq_proceed_iff_value, fun o key ho hswitch => ?_⟩
  · rw [outcome_ofArguments_eq_iff (by decide)]
    simp only [Argument.outcome?_ofText_eq_exit_iff]
  · rw [outcome_ofArguments_eq_iff (by decide)]
    simp only [Argument.outcome?_ofText_eq_error_iff]
  · exact (exists_proceed_iff _).trans outcome_ofArguments_eq_proceed_iff
  · obtain ⟨settings, hsets, hvalue⟩ := ofArguments_eq_proceed_iff_value.mp ho
    rw [hvalue key, ← Argument.exists_key_iff hsets]
    exact Options.value_eq_on_iff hswitch settings

/-- The last of two amounts counts and a switch is on; a missing value refuses what asks for help
behind it, and a request is met before a missing value. -/
theorem ofArguments_decisive_repeated :
    let arguments := ["--amount=1", "-quiet", "amount=\t-007", "--tx=a=b"]
    let o : Options := ⟨-7, 0, "", "", true, false, "a=b", ""⟩
    (ofArguments .initial arguments = .proceed o ∧
      o.value .quiet = .switch true ∧
      ∃ argument ∈ arguments, ∃ value, Argument.Spells argument "quiet" value) ∧
    (ofArguments .initial ["--input=", "--help"]).outcome = .error ∧
    (ofArguments .initial ["--quiet", "-h", "--input="]).outcome = .exit := by
  intro arguments o
  have ho : ofArguments .initial arguments = .proceed o := by decide +kernel
  refine ⟨⟨ho, rfl, ?_⟩, ?_, ?_⟩
  · exact ((ofArguments_decisive arguments).2.2.2.2 o .quiet ho rfl).mp rfl
  · refine (ofArguments_decisive ["--input=", "--help"]).2.1.mpr
      ⟨[], "--input=", ["--help"], rfl, by simp, ?_⟩
    exact Argument.outcome?_ofText_eq_error_iff.mp (by decide)
  · refine (ofArguments_decisive ["--quiet", "-h", "--input="]).1.mpr
      ⟨["--quiet"], "-h", ["--input="], rfl, ?_, .inr (.inl rfl)⟩
    exact List.forall_mem_singleton.mpr (Argument.outcome?_ofText_eq_none_iff.mp (by decide))

end Decision

end SpendScript.CommandLine
