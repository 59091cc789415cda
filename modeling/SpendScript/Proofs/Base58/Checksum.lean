import SpendScript.Address
import SpendScript.Proofs.Base58.Bijection

/-!
# Texts that carry a checksum

The checksum is cut off and made anew when a text is read, so a text is accepted exactly if it is
the one text of its payload. Addresses then tell hashes and versions apart. Nothing of this depends
on the digest behind the checksum.

* `Base58Check.decodeBy_eq_some_iff`: the accepted texts; `encodeBy_inj`: they tell payloads apart;
* **`Base58Check.accepts_image`**: each payload has one text, each hash and version one address.
-/

namespace SpendScript

namespace Base58Check

variable (digest : Bytes → Hash256)

@[simp] theorem length_checksumBy (payload : Bytes) : (checksumBy digest payload).length = 4 := by
  rw [checksumBy, List.length_take, Digest.length_bytes]
  rfl

variable {digest}

/-- **The accepted texts** are those of payloads. -/
theorem decodeBy_eq_some_iff {text : String} {payload : Bytes} :
    decodeBy digest text = some payload ↔ text = encodeBy digest payload := by
  constructor
  · intro h
    obtain ⟨data, hdata, hcheck⟩ := Option.bind_eq_some_iff.mp h
    split at hcheck
    · cases hcheck
    · dsimp only at hcheck
      split at hcheck
      next hsum =>
        obtain rfl := Option.some.inj hcheck
        rw [Base58.decode_eq_some_iff.mp hdata, encodeBy, ← hsum, List.take_append_drop]
      next => cases hcheck
  · rintro rfl
    have hlength : (payload ++ checksumBy digest payload).length = payload.length + 4 := by simp
    have hshort : ¬ payload.length + 4 < 4 := by omega
    rw [decodeBy, encodeBy, Base58.decode_encode]
    change (if (payload ++ checksumBy digest payload).length < 4 then none else _) = _
    rw [hlength, if_neg hshort, Nat.add_sub_cancel, List.take_left' rfl, List.drop_left' rfl,
      if_pos rfl]

theorem decodeBy_encodeBy (payload : Bytes) :
    decodeBy digest (encodeBy digest payload) = some payload :=
  decodeBy_eq_some_iff.mpr rfl

theorem encodeBy_inj {payload payload' : Bytes} :
    encodeBy digest payload = encodeBy digest payload' ↔ payload = payload' := by
  constructor
  · intro h
    have hread : decodeBy digest (encodeBy digest payload) = some payload := decodeBy_encodeBy _
    rw [h, decodeBy_encodeBy] at hread
    exact (Option.some.inj hread).symm
  · rintro rfl
    rfl

variable (digest)

/-- **A text is accepted exactly if it is the text of a payload**, so each payload has one accepted
text. Addresses are never empty, give version and hash back, and are the same for the same version
and hash only. -/
theorem accepts_image :
    (∀ payload, decodeBy digest (encodeBy digest payload) = some payload) ∧
    (∀ text payload, decodeBy digest text = some payload ↔ text = encodeBy digest payload) ∧
    (∀ version hash, Address.ofHash160By digest version hash ≠ "" ∧
      decodeBy digest (Address.ofHash160By digest version hash) = some (version :: hash.bytes)) ∧
    (∀ version version' hash hash',
      Address.ofHash160By digest version hash = Address.ofHash160By digest version' hash' ↔
        hash = hash' ∧ version = version') := by
  refine ⟨decodeBy_encodeBy, fun _ _ => decodeBy_eq_some_iff, fun version hash => ?_,
    fun version version' hash hash' => ?_⟩
  · exact ⟨Base58.encode_ne_empty (List.cons_ne_nil _ _), decodeBy_encodeBy _⟩
  · rw [Address.ofHash160By, Address.ofHash160By, encodeBy_inj, List.cons_eq_cons]
    constructor
    · rintro ⟨hversion, hbytes⟩
      exact ⟨Digest.ext hbytes, hversion⟩
    · rintro ⟨rfl, rfl⟩
      exact ⟨rfl, rfl⟩

end Base58Check

end SpendScript
