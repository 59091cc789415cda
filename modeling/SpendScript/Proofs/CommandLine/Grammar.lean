import Mathlib.Data.List.TakeWhile
import SpendScript.Proofs.CommandLine.Values

/-!
# The grammar of arguments

An argument is a name behind dashes and, after an equals sign, a value. It makes a setting if the
name is that of an option and the value one that the option takes. All other arguments are decisive,
and so are the requests for help and for the version.

* `Dashed`, `Argument.Spells`, **`Argument.spells_iff`**: name and value of an argument;
* `Argument.IsRequest`, `Argument.Sets`, `Argument.IsDecisive`: what an argument is;
  **`Argument.isDecisive_iff`**;
* `Outcome`, `Argument.outcome?`: what becomes of the program on account of an argument;
* **`Argument.ofText_eq_setting_iff`**, `Argument.outcome?_ofText_eq_exit_iff`,
  `Argument.outcome?_ofText_eq_error_iff`: what is read from an argument is what it is.
-/

namespace SpendScript.CommandLine

/-- What is to become of the program. -/
inductive Outcome
  | proceed
  | exit
  | error
  deriving DecidableEq, Repr

/-! ## Name and value -/

/-- The name behind dashes: two of them, or one, or none, and as many as there are up to two. -/
inductive Dashed : List Char → List Char → Prop
  | two (name : List Char) : Dashed ('-' :: '-' :: name) name
  | one {name : List Char} (bare : name.head? ≠ some '-') : Dashed ('-' :: name) name
  | none {name : List Char} (bare : name.head? ≠ some '-') : Dashed name name

namespace Argument

/-- The argument has this name before its first equals sign, behind dashes, and this value after
it; without an equals sign the value is empty. -/
def Spells (argument name value : String) : Prop :=
  ∃ front, '=' ∉ front ∧ Dashed front name.toList ∧
    (argument.toList = front ∧ value = "" ∨ argument.toList = front ++ '=' :: value.toList)

theorem stripDashes_eq_iff {front name : List Char} :
    stripDashes front = name ↔ Dashed front name := by
  constructor
  · rintro rfl
    unfold stripDashes
    split
    · exact .two _
    · next rest hrest =>
      refine .one fun h => ?_
      obtain ⟨tail, rfl⟩ := List.head?_eq_some_iff.mp h
      exact hrest tail rfl
    · next hone =>
      refine .none fun h => ?_
      obtain ⟨tail, rfl⟩ := List.head?_eq_some_iff.mp h
      exact hone tail rfl
  · intro h
    cases h with
    | two => rfl
    | one bare =>
      unfold stripDashes
      split
      · next heq =>
        obtain rfl := List.tail_eq_of_cons_eq heq
        exact absurd rfl bare
      · next heq => exact (List.tail_eq_of_cons_eq heq).symm
      · next hone => exact absurd rfl (hone name)
    | none bare =>
      unfold stripDashes
      split
      · exact absurd rfl bare
      · exact absurd rfl bare
      · rfl

theorem spells_iff {argument name value : String} :
    Spells argument name value ↔ nameOf argument = name ∧ valueOf argument = value := by
  rw [nameOf, valueOf]
  constructor
  · rintro ⟨front, hfront, hdashed, hargument⟩
    have hall : ∀ c ∈ front, (c != '=') = true := fun c hc =>
      bne_iff_ne.mpr fun heq => hfront (heq ▸ hc)
    obtain ⟨htake, hdrop⟩ : argument.toList.takeWhile (· != '=') = front ∧
        String.ofList ((argument.toList.dropWhile (· != '=')).drop 1) = value := by
      rcases hargument with ⟨hargument, rfl⟩ | hargument
      · rw [hargument, List.takeWhile_eq_self_iff.mpr hall, List.dropWhile_eq_nil_iff.mpr hall]
        exact ⟨rfl, rfl⟩
      · rw [hargument, List.takeWhile_append_of_pos hall, List.dropWhile_append_of_pos hall]
        simp
    rw [htake, hdrop, stripDashes_eq_iff.mpr hdashed, String.ofList_toList]
    exact ⟨rfl, rfl⟩
  · rintro ⟨rfl, rfl⟩
    refine ⟨argument.toList.takeWhile (· != '='), fun hmem => ?_, ?_, ?_⟩
    · exact absurd (List.mem_takeWhile_imp hmem) (by decide)
    · rw [String.toList_ofList]
      exact stripDashes_eq_iff.mp rfl
    · rw [String.toList_ofList]
      have hsplit := List.takeWhile_append_dropWhile (p := (· != '=')) (l := argument.toList)
      cases hrest : argument.toList.dropWhile (· != '=') with
      | nil =>
        rw [hrest, List.append_nil] at hsplit
        exact Or.inl ⟨hsplit.symm, rfl⟩
      | cons c rest =>
        have hc := List.head?_dropWhile_not (· != '=') argument.toList
        rw [hrest] at hc hsplit
        obtain rfl : c = '=' := by simpa using hc
        exact Or.inr hsplit.symm

/-! ## What an argument is -/

/-- The argument asks for help or for the version. -/
def IsRequest (argument : String) : Prop :=
  argument = "--help" ∨ argument = "-h" ∨ argument = "--version"

/-- The argument names the option of the setting and has its value. -/
def Sets (argument : String) (s : Setting) : Prop :=
  ∃ value, Spells argument s.key.name value ∧ s.OfText value

/-- The argument is a request, names no option, or has a value that its option does not take. -/
def IsDecisive (argument : String) : Prop :=
  IsRequest argument ∨ ∃ name value, Spells argument name value ∧
    ((∀ key : Key, key.name ≠ name) ∨
      ∃ key : Key, key.name = name ∧ ∀ s : Setting, s.key = key → ¬ s.OfText value)

theorem spells_self (argument : String) : Spells argument (nameOf argument) (valueOf argument) :=
  spells_iff.mpr ⟨rfl, rfl⟩

/-- No option has the name of a request. -/
theorem ofName?_of_isRequest {argument : String} (h : IsRequest argument) :
    Key.ofName? (nameOf argument) = none := by
  rcases h with rfl | rfl | rfl <;> decide

theorem ofText_of_not_isRequest {argument : String} (h : ¬ IsRequest argument) :
    ofText argument =
      match Key.ofName? (nameOf argument) with
      | none => .unknown (nameOf argument)
      | some key =>
        match key.read (valueOf argument) with
        | none => .refused key (valueOf argument)
        | some s => .setting s := by
  have hhelp : ¬ (argument = "--help" ∨ argument = "-h") := fun hhelp =>
    h (hhelp.imp_right Or.inl)
  have hversion : argument ≠ "--version" := fun hversion => h (Or.inr (Or.inr hversion))
  exact (if_neg hhelp).trans (if_neg hversion)

/-- What becomes of the program on account of the argument; nothing yet if it makes a setting. -/
def outcome? : Argument → Option Outcome
  | .setting _ => none
  | .help | .version => some .exit
  | .unknown _ | .refused _ _ => some .error

/-- An argument that makes a setting names its option. -/
theorem Sets.key_eq_iff {argument : String} {s : Setting} (h : Sets argument s) {key : Key} :
    s.key = key ↔ ∃ value, Spells argument key.name value := by
  obtain ⟨value, hspells, -⟩ := h
  constructor
  · rintro rfl
    exact ⟨value, hspells⟩
  · rintro ⟨value', hspells'⟩
    have hname := (spells_iff.mp hspells').1.symm.trans (spells_iff.mp hspells).1
    have hkey := Key.ofName?_eq_some_iff.mpr hname.symm
    exact Option.some.inj (hkey.symm.trans (Key.ofName?_eq_some_iff.mpr rfl))

/-- **An argument is decisive** unless it makes a setting. -/
theorem isDecisive_iff {argument : String} : IsDecisive argument ↔ ∀ s, ¬ Sets argument s := by
  constructor
  · rintro h s ⟨value, hspells, hvalue⟩
    obtain ⟨hname, rfl⟩ := spells_iff.mp hspells
    have hkey := Key.ofName?_eq_some_iff.mpr hname.symm
    rcases h with hrequest | ⟨name, value, hspells', hunknown | ⟨key, rfl, hrefused⟩⟩
    · -- a request has the name of no option, so it makes no setting
      rw [ofName?_of_isRequest hrequest] at hkey
      cases hkey
    · exact hunknown s.key (hname.symm.trans (spells_iff.mp hspells').1)
    · obtain ⟨hname', rfl⟩ := spells_iff.mp hspells'
      rw [hname', Key.ofName?_eq_some_iff.mpr rfl] at hkey
      exact hrefused s (Option.some.inj hkey).symm hvalue
  · intro hnone
    cases hkey : Key.ofName? (nameOf argument) with
    | none =>
      exact Or.inr ⟨_, _, spells_self argument, Or.inl (Key.ofName?_eq_none_iff.mp hkey)⟩
    | some key =>
      have hname := Key.ofName?_eq_some_iff.mp hkey
      refine Or.inr ⟨_, _, spells_self argument, Or.inr ⟨key, hname, ?_⟩⟩
      rintro s rfl hvalue
      exact hnone s ⟨_, hname ▸ spells_self argument, hvalue⟩

theorem outcome?_ofText_eq_exit_iff {argument : String} :
    (ofText argument).outcome? = some .exit ↔ IsRequest argument := by
  constructor
  · intro h
    by_contra hrequest
    rw [ofText_of_not_isRequest hrequest] at h
    split at h
    · cases h
    · split at h <;> cases h
  · rintro (rfl | rfl | rfl) <;> rfl

/-- **A setting is read** from the arguments that make it, and from no others. -/
theorem ofText_eq_setting_iff {argument : String} {s : Setting} :
    ofText argument = .setting s ↔ Sets argument s := by
  constructor
  · intro h
    have hrequest : ¬ IsRequest argument := fun hrequest => by
      have hexit := outcome?_ofText_eq_exit_iff.mpr hrequest
      rw [h] at hexit
      cases hexit
    rw [ofText_of_not_isRequest hrequest] at h
    split at h
    · cases h
    · next key hkey =>
      split at h
      · cases h
      · next s' hread =>
        obtain rfl := Argument.setting.inj h
        obtain ⟨rfl, hvalue⟩ := Key.read_eq_some_iff.mp hread
        exact ⟨_, Key.ofName?_eq_some_iff.mp hkey ▸ spells_self argument, hvalue⟩
  · rintro ⟨value, hspells, hvalue⟩
    obtain ⟨hname, rfl⟩ := spells_iff.mp hspells
    have hkey := Key.ofName?_eq_some_iff.mpr hname.symm
    have hrequest : ¬ IsRequest argument := fun h => by
      rw [ofName?_of_isRequest h] at hkey
      cases hkey
    rw [ofText_of_not_isRequest hrequest, hkey]
    dsimp only
    rw [Key.read_eq_some_iff.mpr ⟨rfl, hvalue⟩]

theorem outcome?_ofText_eq_none_iff {argument : String} :
    (ofText argument).outcome? = none ↔ ¬ IsDecisive argument := by
  simp only [isDecisive_iff, ← ofText_eq_setting_iff]
  cases ofText argument <;> simp [outcome?]

theorem outcome?_ofText_eq_error_iff {argument : String} :
    (ofText argument).outcome? = some .error ↔ IsDecisive argument ∧ ¬ IsRequest argument := by
  have hdecisive : IsDecisive argument ↔ (ofText argument).outcome? ≠ none := by
    rw [Ne, outcome?_ofText_eq_none_iff, not_not]
  rw [← outcome?_ofText_eq_exit_iff, hdecisive]
  cases ofText argument <;> simp [outcome?]

end Argument

end SpendScript.CommandLine
