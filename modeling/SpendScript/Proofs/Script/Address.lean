import SpendScript.Proofs.Base58.Checksum
import SpendScript.Proofs.Script.Units

/-!
# The address of a program

While a program is read, the empty text stands for an address that has not been found yet. No push
names the empty text, since its address carries a version, so the first address that is found stays
and can be read back to what was pushed.

* `Operation.HasKeySize`, `Operation.IsFirstKey`: the pushes that name an address;
* `Operation.address?_ne_empty`, **`Program.addressOf_eq`**: the first address stays;
* `Program.addressOf_append`, `Program.addressOf_of_isFirstKey`;
* **`Program.address_of_parse`**: the address of two scripts.
-/

namespace SpendScript

namespace Operation

/-- Data of the size of a key hash or of a key. -/
def HasKeySize (data : Bytes) : Prop := data.length = 20 ∨ data.length = 65

/-- The first data of such a size that the operations push. -/
def IsFirstKey (data : Bytes) (operations : List Operation) : Prop :=
  HasKeySize data ∧ ∃ before after, operations = before ++ .push data :: after ∧
    ∀ other, .push other ∈ before → ¬ HasKeySize other

variable {p : Primitives}

/-! ## One operation -/

theorem address?_of_hash {data : Bytes} (h : data.length = 20) :
    (push data).address? p = some (Address.ofHash160 p Address.mainVersion ⟨data, h⟩) :=
  dif_pos h

theorem address?_of_key {data : Bytes} (h : data.length = 65) :
    (push data).address? p = some (Address.ofPublicKey p Address.mainVersion data) := by
  rw [address?, dif_neg (by omega), if_pos h]

theorem address?_eq_none_iff {op : Operation} :
    op.address? p = none ↔ ∀ data, op = .push data → ¬ HasKeySize data := by
  cases op with
  | push data =>
    simp only [push.injEq, forall_eq', HasKeySize]
    by_cases hhash : data.length = 20
    · simp [address?_of_hash hhash, hhash]
    by_cases hkey : data.length = 65
    · simp [address?_of_key hkey, hkey]
    · rw [address?, dif_neg hhash, if_neg hkey]
      simp [hhash, hkey]
  | code op => simp [address?]
  | fail => simp [address?]

/-- An address is never the empty text: there is a version in it at least. -/
theorem address?_ne_empty {op : Operation} {address : String} (h : op.address? p = some address) :
    address ≠ "" := by
  cases op with
  | push data =>
    rw [address?] at h
    split at h
    · cases h
      exact Base58.encode_ne_empty (List.cons_ne_nil _ _)
    split at h
    · cases h
      exact Base58.encode_ne_empty (List.cons_ne_nil _ _)
    · cases h
  | code op => cases h
  | fail => cases h

/-! ## All operations -/

/-- An address that has been found stays; after the empty text the next one counts. -/
theorem foldl_addressAfter (address : String) (ops : List Operation) :
    ops.foldl (addressAfter p) address =
      if address = "" then (ops.findSome? (address? p)).getD "" else address := by
  -- what is found is not the empty text, so the search does not go on behind it
  induction ops generalizing address with
  | nil => by_cases h : address = "" <;> simp [h]
  | cons op ops ih =>
    rw [List.foldl_cons, ih, List.findSome?_cons, addressAfter]
    simp only [String.isEmpty_iff]
    by_cases h : address = ""
    · cases hop : op.address? p with
      | none => simp [h]
      | some found => simp [h, address?_ne_empty hop]
    · simp [h]

end Operation

namespace Program

open Operation

variable {p : Primitives}

/-- **The first address stays.** -/
theorem addressOf_eq (p : Primitives) (ops : List Operation) :
    addressOf p ops = (ops.findSome? (address? p)).getD "" :=
  (foldl_addressAfter "" ops).trans (if_pos rfl)

/-- The operations behind those that name an address do not matter. -/
theorem addressOf_append (p : Primitives) (a b : List Operation) :
    addressOf p (a ++ b) = if addressOf p a ≠ "" then addressOf p a else addressOf p b := by
  rw [addressOf, List.foldl_append, foldl_addressAfter, ← addressOf_eq, ← addressOf, ite_not]

theorem addressOf_eq_empty_iff {ops : List Operation} :
    addressOf p ops = "" ↔ ∀ data, .push data ∈ ops → ¬ HasKeySize data := by
  rw [addressOf_eq]
  constructor
  · intro h data hmem
    have hnone : ops.findSome? (address? p) = none := by
      cases hsome : ops.findSome? (address? p) with
      | none => rfl
      | some address =>
        obtain ⟨op, -, hop⟩ := List.exists_of_findSome?_eq_some hsome
        rw [hsome] at h
        exact absurd h (address?_ne_empty hop)
    exact address?_eq_none_iff.mp (List.findSome?_eq_none_iff.mp hnone _ hmem) data rfl
  · intro h
    have hnone : ops.findSome? (address? p) = none := by
      refine List.findSome?_eq_none_iff.mpr fun op hop => address?_eq_none_iff.mpr ?_
      rintro data rfl
      exact h data hop
    rw [hnone]
    rfl

/-- The first data of the size of a key hash or of a key decides. -/
theorem addressOf_of_isFirstKey {ops : List Operation} {data : Bytes} (h : IsFirstKey data ops) :
    (push data).address? p = some (addressOf p ops) := by
  obtain ⟨hsize, before, after, rfl, hbefore⟩ := h
  have hempty : addressOf p before = "" := addressOf_eq_empty_iff.mpr hbefore
  rw [addressOf_append, if_neg (not_not.mpr hempty), addressOf_eq, List.findSome?_cons]
  cases haddress : (push data).address? p with
  | none => exact absurd hsize (address?_eq_none_iff.mp haddress data rfl)
  | some address => rfl

theorem exists_isFirstKey {ops : List Operation} (h : addressOf p ops ≠ "") :
    ∃ data, IsFirstKey data ops := by
  rw [addressOf_eq] at h
  cases hsome : ops.findSome? (address? p) with
  | none => exact absurd (by rw [hsome]; rfl) h
  | some address =>
    obtain ⟨before, op, after, rfl, hop, hbefore⟩ := List.findSome?_eq_some_iff.mp hsome
    have hne : op.address? p ≠ none := by
      rw [hop]
      exact Option.some_ne_none address
    simp only [Ne, address?_eq_none_iff, not_forall, not_not] at hne
    obtain ⟨data, rfl, hsize⟩ := hne
    exact ⟨data, hsize, before, after, rfl, fun other hmem =>
      address?_eq_none_iff.mp (hbefore _ hmem) other rfl⟩

/-! ## Two scripts -/

/-- **The first push of a key hash or of a key is the address**, whatever follows it. A program has
no address exactly if it pushes no data of such a size. Otherwise the first data that it pushes of
one of the two sizes decides, and the address can be read back to the version of the main network
and this key hash, or the hash of this key. -/
theorem address_of_parse {u l : Bytes} {program : Program} (h : parse p u l = .ok program) :
    (program.address = "" ↔ ∀ data, .push data ∈ program.operations → ¬ HasKeySize data) ∧
    (program.address ≠ "" → ∃ data, IsFirstKey data program.operations) ∧
    ∀ data, IsFirstKey data program.operations →
      (∀ hash : data.length = 20,
        program.address = Address.ofHash160 p Address.mainVersion ⟨data, hash⟩ ∧
          Base58Check.decode p program.address = some (0x00 :: data)) ∧
      (data.length = 65 →
        program.address = Address.ofPublicKey p Address.mainVersion data ∧
          Base58Check.decode p program.address = some (0x00 :: (p.hash160 data).bytes)) := by
  obtain ⟨-, haddress⟩ := parse_eq_ok_iff.mp h
  rw [haddress]
  refine ⟨addressOf_eq_empty_iff, exists_isFirstKey, fun data hdata => ?_⟩
  have hfirst := addressOf_of_isFirstKey (p := p) hdata
  constructor
  · intro hash
    rw [address?_of_hash hash] at hfirst
    rw [← Option.some.inj hfirst]
    exact ⟨rfl, Base58Check.decodeBy_encodeBy _⟩
  · intro hkey
    rw [address?_of_key hkey] at hfirst
    rw [← Option.some.inj hfirst]
    exact ⟨rfl, Base58Check.decodeBy_encodeBy _⟩

/-- A push of 20 bytes that begins in the unlocking script and ends in the locking script comes
before a push of 65 bytes. -/
theorem address_of_parse_across :
    let hash : Bytes := List.replicate 20 7
    let key : Bytes := List.replicate 65 4
    ∃ program,
      parse Primitives.standard (20 :: hash.take 5) (hash.drop 5 ++ 65 :: key) = .ok program ∧
        program.operations = [.push hash, .push key] ∧
        Base58Check.decode Primitives.standard program.address = some (0x00 :: hash) := by
  intro hash key
  have hops : operationsOf ((20 :: hash.take 5) ++ (hash.drop 5 ++ 65 :: key)) =
      .ok [.push hash, .push key] :=
    (operationsOf_eq_ok_iff _ _).mpr ⟨by simp [InScript, hash, key], by decide⟩
  have hparse := parse_of_operationsOf (p := Primitives.standard) hops
  have hfirst : IsFirstKey hash [.push hash, .push key] :=
    ⟨Or.inl rfl, [], [.push key], rfl, by simp⟩
  have hread := ((address_of_parse hparse).2.2 hash hfirst).1 rfl
  exact ⟨_, hparse, rfl, hread.2⟩

end Program

end SpendScript
