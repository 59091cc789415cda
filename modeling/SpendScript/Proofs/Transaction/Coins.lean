import Mathlib.Algebra.Group.Nat.Defs
import Mathlib.Data.Finset.Card
import SpendScript.Transaction.Coins

/-!
# The last write

Under a point a snapshot holds what was added last under it, and nothing if nothing was. The outputs
of a transaction are added under its id, one after the other, so what two transactions add is told
apart by their ids and the order of the two does not matter.

* `OutPoint.Matches`: the same bytes of the hash and the same index;
* `Coins.lastAdded?`, `Coins.addAll`, **`Coins.find?_addAll`**: many additions;
* **`Coins.size_outputs_eq_card`**: the points that lead to an output;
* `Coins.find?_addAll_comm`: additions under different points;
* `Coins.Change`, `Coins.run`, `Coins.run_eq_addAll`: a run of changes and its additions;
* **`Coins.run_lastAdded`**: what a run leaves.
-/

namespace SpendScript

/-! ## Points -/

namespace OutPoint

/-- The same 32 bytes of the hash and the same index. -/
def Matches (a b : OutPoint) : Prop := a.hash.bytes = b.hash.bytes ∧ a.index = b.index

theorem matches_iff {a b : OutPoint} : a.Matches b ↔ a = b := by
  cases a
  cases b
  rw [mk.injEq, Digest.ext_iff, Matches]

end OutPoint

namespace Coins

/-! ## Additions -/

section Additions

variable {point : OutPoint} {output : Output} {additions a b : List (OutPoint × Output)}

variable (point additions) in
/-- The output that is added last under a point. -/
def lastAdded? : Option Output :=
  (additions.reverse.find? fun addition => addition.1 = point).map Prod.snd

theorem lastAdded?_append (point : OutPoint) (a b : List (OutPoint × Output)) :
    lastAdded? point (a ++ b) = (lastAdded? point b).or (lastAdded? point a) := by
  rw [lastAdded?, List.reverse_append, List.find?_append, Option.map_or, ← lastAdded?, ← lastAdded?]

theorem lastAdded?_eq_none_iff :
    lastAdded? point additions = none ↔ ∀ addition ∈ additions, ¬ addition.1.Matches point := by
  simp [lastAdded?, OutPoint.matches_iff]

theorem lastAdded?_eq_some_iff :
    lastAdded? point additions = some output ↔
      ∃ before q after, additions = before ++ (q, output) :: after ∧ q.Matches point ∧
        ∀ addition ∈ after, ¬ addition.1.Matches point := by
  simp only [OutPoint.matches_iff]
  constructor
  · intro h
    obtain ⟨⟨q, output⟩, hfind, rfl⟩ := Option.map_eq_some_iff.mp h
    obtain ⟨hq, after, before, hreverse, hafter⟩ := List.find?_eq_some_iff_append.mp hfind
    refine ⟨before.reverse, q, after.reverse, ?_, of_decide_eq_true hq, fun addition hmem => ?_⟩
    · rw [List.reverse_eq_iff.mp hreverse]
      simp
    · simpa using hafter addition (List.mem_reverse.mp hmem)
  · rintro ⟨before, q, after, rfl, hq, hafter⟩
    have hnone : lastAdded? point after = none := by
      simpa only [lastAdded?_eq_none_iff, OutPoint.matches_iff] using hafter
    rw [List.append_cons, lastAdded?_append, hnone, Option.none_or, lastAdded?_append]
    simp [lastAdded?, hq]

/-- One addition after the other. -/
def addAll (coins : Coins) (additions : List (OutPoint × Output)) : Coins :=
  additions.foldl (fun coins addition => coins.add addition.1 addition.2) coins

/-- **The last addition counts**, and what was there before if there is none. -/
theorem find?_addAll (coins : Coins) (additions : List (OutPoint × Output)) (point : OutPoint) :
    (coins.addAll additions).find? point =
      (lastAdded? point additions).or (coins.find? point) := by
  -- the first addition counts only where no later one is under the point
  induction additions generalizing coins with
  | nil => rfl
  | cons addition additions ih =>
    have hone : (lastAdded? point [addition]).or (coins.find? point) =
        if addition.1 = point then some addition.2 else coins.find? point := by
      by_cases h : addition.1 = point <;> simp [lastAdded?, h]
    rw [← List.singleton_append, lastAdded?_append, Option.or_assoc, hone, ← find?_add]
    exact ih _

theorem find?_addAll_empty (additions : List (OutPoint × Output)) (point : OutPoint) :
    (empty.addAll additions).find? point = lastAdded? point additions := by
  rw [find?_addAll, find?_empty, Option.or_none]

/-- Additions under different points can be made in either order. -/
theorem find?_addAll_comm (coins : Coins) (h : ∀ x ∈ a, ∀ y ∈ b, x.1 ≠ y.1) (point : OutPoint) :
    ((coins.addAll a).addAll b).find? point = ((coins.addAll b).addAll a).find? point := by
  simp only [find?_addAll, ← Option.or_assoc]
  cases ha : lastAdded? point a with
  | none => rw [Option.or_none, Option.none_or]
  | some output =>
    obtain ⟨_, q, _, rfl, hq, -⟩ := lastAdded?_eq_some_iff.mp ha
    have hb : lastAdded? point b = none := lastAdded?_eq_none_iff.mpr fun y hy hpoint =>
      h (q, output) (by simp) y hy
        ((OutPoint.matches_iff.mp hq).trans (OutPoint.matches_iff.mp hpoint).symm)
    rw [hb, Option.or_none, Option.none_or]

end Additions

/-! ## Size -/

theorem mem_keys_iff {coins : Coins} {point : OutPoint} :
    point ∈ coins.outputs.keys.toFinset ↔ coins.find? point ≠ none := by
  rw [List.mem_toFinset, Std.HashMap.mem_keys, Std.HashMap.mem_iff_isSome_getElem?,
    Option.isSome_iff_ne_none, find?]

/-- **As many as the points that lead to an output.** -/
theorem size_outputs_eq_card {coins : Coins} {points : Finset OutPoint}
    (h : ∀ point, point ∈ points ↔ coins.find? point ≠ none) :
    coins.outputs.size = points.card := by
  have hkeys : coins.outputs.keys.toFinset = points :=
    Finset.ext fun point => mem_keys_iff.trans (h point).symm
  rw [← hkeys, List.toFinset_card_of_nodup Std.HashMap.nodup_keys, Std.HashMap.length_keys]

theorem size_congr {coins coins' : Coins} (h : ∀ point, coins.find? point = coins'.find? point) :
    coins.size = coins'.size := by
  rw [size, size, size_outputs_eq_card fun point => mem_keys_iff,
    size_outputs_eq_card fun point => by rw [← h, ← mem_keys_iff]]

theorem size_outputs_addAll_empty (additions : List (OutPoint × Output)) :
    (empty.addAll additions).outputs.size = (additions.map Prod.fst).toFinset.card := by
  refine size_outputs_eq_card fun point => ?_
  rw [find?_addAll_empty, Ne, lastAdded?_eq_none_iff]
  simp [OutPoint.matches_iff]

theorem isEmpty_iff {coins : Coins} : coins.isEmpty = true ↔ coins.outputs.size = 0 := by
  rw [isEmpty, Std.HashMap.isEmpty_eq_size_eq_zero, beq_iff_eq]

/-- The int that counts fewer than `2 ^ 32` points is zero only if there are none. -/
theorem size_eq_zero_iff {coins : Coins} (h : coins.outputs.size < 2 ^ 32) :
    coins.size = 0 ↔ coins.outputs.size = 0 := by
  constructor
  · intro hzero
    have hint := congrArg Int32.toInt hzero
    rw [size, Int32.toInt_ofNat', Int.bmod_def, Int32.size] at hint
    change _ = (0 : Int) at hint
    omega
  · intro hzero
    rw [size, hzero]
    rfl

/-! ## Runs -/

/-- A change of a snapshot. -/
inductive Change
  | add (point : OutPoint) (output : Output)
  | addOutputs (tx : Transaction)

variable (p : Primitives)

def Change.apply (coins : Coins) : Change → Coins
  | .add point output => coins.add point output
  | .addOutputs tx => coins.addOutputs p tx

/-- What a change adds: each output of a transaction that the int of their number counts, under the
id and the place of the output. -/
def Change.additions : Change → List (OutPoint × Output)
  | .add point output => [(point, output)]
  | .addOutputs tx =>
    List.ofFn fun j : Fin tx.outputCount.toInt.toNat =>
      (⟨tx.id p, UInt32.ofNat j⟩, tx.outputs.get (j.castLE tx.toNat_outputCount_le))

/-- The snapshot after all changes. -/
def run (coins : Coins) (changes : List Change) : Coins := changes.foldl (Change.apply p) coins

theorem created_eq_ofFn (tx : Transaction) :
    created p tx = (Change.addOutputs tx).additions p := by
  apply List.ext_getElem
  · simpa [created, Change.additions] using tx.toNat_outputCount_le
  · simp [created, Change.additions]

theorem addOutputs_eq_addAll (coins : Coins) (tx : Transaction) :
    coins.addOutputs p tx = coins.addAll ((Change.addOutputs tx).additions p) := by
  rw [← created_eq_ofFn]
  rfl

/-- One change makes its additions. -/
theorem apply_eq_addAll (coins : Coins) (change : Change) :
    change.apply p coins = coins.addAll (change.additions p) := by
  cases change with
  | add point output => rfl
  | addOutputs tx => exact addOutputs_eq_addAll p coins tx

/-- **A run makes the additions of its changes.** -/
theorem run_eq_addAll (coins : Coins) (changes : List Change) :
    run p coins changes = coins.addAll (changes.flatMap (Change.additions p)) := by
  induction changes generalizing coins with
  | nil => rfl
  | cons change changes ih =>
    rw [run, List.foldl_cons, ← run, ih, apply_eq_addAll, List.flatMap_cons, addAll, addAll, addAll,
      List.foldl_append]

theorem hash_of_mem_additions {tx : Transaction} {addition : OutPoint × Output}
    (h : addition ∈ (Change.addOutputs tx).additions p) : addition.1.hash = tx.id p := by
  obtain ⟨j, rfl⟩ := List.mem_ofFn.mp h
  rfl

/-- **The last write wins.** After any run from the empty snapshot a point leads to the output that
was added last under the same hash bytes and index, and to none if there was no such addition. The
size is the int of the number of different points that were added, and the snapshot is empty if that
number is zero. On any snapshot transactions with different ids can be added in either order. -/
theorem run_lastAdded (changes : List Change) :
    let additions := changes.flatMap (Change.additions p)
    let coins := run p empty changes
    let points := (additions.map Prod.fst).toFinset
    (∀ point output, coins.find? point = some output ↔
      ∃ before q after, additions = before ++ (q, output) :: after ∧ q.Matches point ∧
        ∀ addition ∈ after, ¬ addition.1.Matches point) ∧
    (∀ point, coins.find? point = none ↔
      ∀ addition ∈ additions, ¬ addition.1.Matches point) ∧
    coins.size = .ofNat points.card ∧
    (points.card < 2 ^ 31 → coins.size.toInt = points.card) ∧
    (coins.isEmpty = true ↔ points.card = 0) ∧
    (points.card < 2 ^ 32 → (coins.isEmpty = true ↔ coins.size = 0)) ∧
    ∀ (start : Coins) (tx tx' : Transaction), tx.id p ≠ tx'.id p →
      (∀ point, ((start.addOutputs p tx).addOutputs p tx').find? point =
        ((start.addOutputs p tx').addOutputs p tx).find? point) ∧
      ((start.addOutputs p tx).addOutputs p tx').size =
        ((start.addOutputs p tx').addOutputs p tx).size := by
  intro additions coins points
  have hcoins : coins = empty.addAll additions := run_eq_addAll p empty changes
  have hsize : coins.outputs.size = points.card := by
    rw [hcoins, size_outputs_addAll_empty]
  refine ⟨fun point output => ?_, fun point => ?_, congrArg Int32.ofNat hsize, fun hlt => ?_,
    hsize ▸ isEmpty_iff, fun hlt => ?_, fun start tx tx' hid => ?_⟩
  · rw [hcoins, find?_addAll_empty, lastAdded?_eq_some_iff]
  · rw [hcoins, find?_addAll_empty, lastAdded?_eq_none_iff]
  · rw [size, hsize, Int32.toInt_ofNat_of_lt hlt]
  · rw [isEmpty_iff, size_eq_zero_iff (hsize ▸ hlt)]
  · have hpoints : ∀ x ∈ (Change.addOutputs tx).additions p,
        ∀ y ∈ (Change.addOutputs tx').additions p, x.1 ≠ y.1 := by
      intro x hx y hy hpoint
      rw [← hash_of_mem_additions p hx, ← hash_of_mem_additions p hy, hpoint] at hid
      exact hid rfl
    have hfind := find?_addAll_comm start hpoints
    simp only [addOutputs_eq_addAll]
    exact ⟨hfind, size_congr hfind⟩

/-- The one output of a transaction is replaced. Another transaction can be added before or after.
-/
theorem run_lastAdded_replaced :
    let p := Primitives.standard
    let tx : Transaction := ⟨1, [], [⟨5, []⟩], 0⟩
    let tx' : Transaction := ⟨2, [], [⟨6, []⟩], 0⟩
    let point : OutPoint := ⟨tx.id p, 0⟩
    let coins := run p empty [.addOutputs tx, .add point ⟨7, []⟩]
    coins.find? point = some ⟨7, []⟩ ∧ coins.size = 1 ∧ tx.id p ≠ tx'.id p ∧
      ((empty.addOutputs p tx).addOutputs p tx').size =
        ((empty.addOutputs p tx').addOutputs p tx).size := by
  intro p tx tx' point coins
  have hid : tx.id p ≠ tx'.id p := by decide +kernel
  obtain ⟨hfind, -, hsize, -, -, -, hcomm⟩ :=
    run_lastAdded p [.addOutputs tx, .add point ⟨7, []⟩]
  refine ⟨(hfind point ⟨7, []⟩).mpr ⟨[(point, ⟨5, []⟩)], point, [], rfl, ⟨rfl, rfl⟩, by simp⟩, ?_,
    hid, (hcomm empty tx tx' hid).2⟩
  have hpoints : ([Change.addOutputs tx, .add point ⟨7, []⟩].flatMap
      (Change.additions p)).map Prod.fst = [point, point] := rfl
  rw [hsize, hpoints]
  simp

end Coins

end SpendScript
