import SpendScript.Proofs.Base58.Numeral

/-!
# Base58 is a bijection

The text of a byte sequence is its numeral in radix 58, digit for digit a character, and the bytes
of a text are its numeral in radix 256. As each way leads back, byte sequences and texts over the
alphabet correspond one to one.

* `digitValue?_eq_some_iff`: a digit and its character;
* **`encodeChars_eq`**, **`decodeChars_eq_some_iff`**: the two conversions as numerals;
* **`decode_eq_some_iff`**: each text that can be read is the text of what is read from it;
* **`encode_decode_bijection`**: the bijection as a whole, with the buffers that carry it.
-/

namespace SpendScript.Base58

/-! ## Digits and characters -/

theorem length_alphabet : alphabet.length = 58 := by decide +kernel

theorem digit_zero : digit 0 = '1' := by decide +kernel

theorem digit_eq_getElem {n : Nat} (h : n < alphabet.length) : digit n = alphabet[n] := by
  rw [digit, List.getD_eq_getElem?_getD, List.getElem?_eq_getElem h, Option.getD_some]

theorem digitValue?_digit {n : Nat} (h : n < 58) : digitValue? (digit n) = some n := by
  have hall : ∀ n < 58, digitValue? (digit n) = some n := by decide +kernel
  exact hall n h

theorem digitValue?_eq_some_iff {c : Char} {n : Nat} :
    digitValue? c = some n ↔ n < 58 ∧ digit n = c := by
  constructor
  · intro h
    obtain ⟨hn, hc, -⟩ := List.idxOf?_eq_some_iff.mp h
    exact ⟨length_alphabet ▸ hn, (digit_eq_getElem hn).trans hc⟩
  · rintro ⟨hn, rfl⟩
    exact digitValue?_digit hn

theorem digit_eq_one_iff {n : Nat} (h : n < 58) : digit n = '1' ↔ n = 0 := by
  constructor
  · intro hone
    have hn := digitValue?_digit h
    rw [hone] at hn
    have hzero := digitValue?_digit (n := 0) (by decide)
    rw [digit_zero, hn] at hzero
    exact Option.some.inj hzero
  · rintro rfl
    exact digit_zero

theorem mem_alphabet_iff {c : Char} : c ∈ alphabet ↔ ∃ n < 58, digit n = c := by
  constructor
  · intro h
    have hsome : digitValue? c ≠ none := mt List.idxOf?_eq_none_iff.mp (not_not_intro h)
    obtain ⟨n, hn⟩ := Option.ne_none_iff_exists'.mp hsome
    exact ⟨n, digitValue?_eq_some_iff.mp hn⟩
  · rintro ⟨n, hn, rfl⟩
    have hmem := List.getElem_mem (l := alphabet) (n := n) (by rwa [length_alphabet])
    rwa [← digit_eq_getElem] at hmem

/-- The texts over the alphabet are the texts of numerals. -/
theorem forall_mem_alphabet_iff {cs : List Char} :
    (∀ c ∈ cs, c ∈ alphabet) ↔ ∃ ds : List Nat, (∀ d ∈ ds, d < 58) ∧ ds.map digit = cs := by
  induction cs with
  | nil => simp
  | cons c cs ih =>
    rw [List.forall_mem_cons, ih, mem_alphabet_iff]
    constructor
    · rintro ⟨⟨d, hd, rfl⟩, ds, hds, rfl⟩
      exact ⟨d :: ds, List.forall_mem_cons.mpr ⟨hd, hds⟩, rfl⟩
    · rintro ⟨_ | ⟨d, ds⟩, hds, hmap⟩
      · cases hmap
      · obtain ⟨hd, hds⟩ := List.forall_mem_cons.mp hds
        obtain ⟨hc, hcs⟩ := List.cons_eq_cons.mp hmap
        exact ⟨⟨d, hd, hc⟩, ds, hds, hcs⟩

theorem mapM_digitValue?_eq_some_iff {cs : List Char} {ds : List Nat} :
    cs.mapM digitValue? = some ds ↔ (∀ d ∈ ds, d < 58) ∧ ds.map digit = cs := by
  induction cs generalizing ds with
  | nil => cases ds <;> simp
  | cons c cs ih =>
    rw [List.mapM_cons]
    constructor
    · intro h
      obtain ⟨d, hd, htail⟩ := Option.bind_eq_some_iff.mp h
      obtain ⟨rest, hrest, hcons⟩ := Option.bind_eq_some_iff.mp htail
      obtain ⟨hlt, hc⟩ := digitValue?_eq_some_iff.mp hd
      obtain ⟨hmem, hcs⟩ := ih.mp hrest
      obtain rfl : d :: rest = ds := Option.some.inj hcons
      subst hc hcs
      exact ⟨List.forall_mem_cons.mpr ⟨hlt, hmem⟩, rfl⟩
    · rintro ⟨hds, hmap⟩
      cases ds with
      | nil => cases hmap
      | cons d ds =>
        obtain ⟨hd, hds⟩ := List.forall_mem_cons.mp hds
        obtain ⟨rfl, rfl⟩ := List.cons_eq_cons.mp hmap
        rw [digitValue?_digit hd, ih.mpr ⟨hds, rfl⟩]
        rfl

/-! ## The conversions as numerals -/

theorem mem_map_toNat_lt (bs : Bytes) : ∀ d ∈ bs.map UInt8.toNat, d < 256 := by
  intro d hd
  obtain ⟨b, -, rfl⟩ := List.mem_map.mp hd
  exact b.toNat_lt

theorem map_ofNat_toNat (bs : Bytes) : (bs.map UInt8.toNat).map UInt8.ofNat = bs := by
  rw [List.map_map]
  exact (List.map_congr_left fun b _ => UInt8.ofNat_toNat).trans (List.map_id bs)

theorem map_toNat_ofNat {ds : List Nat} (h : ∀ d ∈ ds, d < 256) :
    (ds.map UInt8.ofNat).map UInt8.toNat = ds := by
  rw [List.map_map]
  refine (List.map_congr_left fun d hd => ?_).trans (List.map_id ds)
  exact UInt8.toNat_ofNat_of_lt' (h d hd)

theorem head?_map_toNat {bs : Bytes} (h : bs.head? ≠ some 0) :
    (bs.map UInt8.toNat).head? ≠ some 0 :=
  head?_map_ne (fun _ _ hb => UInt8.toNat_inj.mp (hb.trans UInt8.toNat_zero.symm)) h

theorem head?_map_digit {ds : List Nat} (hds : ∀ d ∈ ds, d < 58) (h : ds.head? ≠ some 0) :
    (ds.map digit).head? ≠ some '1' :=
  head?_map_ne (fun d hd => (digit_eq_one_iff (hds d hd)).mp) h

theorem encodeChars_replicate_append (zeros : Nat) {rest : Bytes} (hrest : rest.head? ≠ some 0) :
    encodeChars (List.replicate zeros 0 ++ rest) = List.replicate zeros '1' ++
      (Nat.digits 58 (Nat.ofDigits 256 (rest.map UInt8.toNat).reverse)).reverse.map digit := by
  have hroom : 256 ^ (rest.map UInt8.toNat).length ≤ 58 ^ digitCapacity rest.length := by
    rw [List.length_map]
    exact pow_le_digitCapacity rest.length
  rw [encodeChars, takeWhile_replicate_append zeros hrest, dropWhile_replicate_append zeros hrest,
    significant_convert (by decide) (by decide) (mem_map_toNat_lt rest) hroom, List.map_replicate]

/-- **The text of bytes** is their numeral in radix 58. -/
theorem encodeChars_eq (bs : Bytes) :
    encodeChars bs = (Radix.recode 256 58 (bs.map UInt8.toNat)).map digit := by
  obtain ⟨zeros, rest, rfl, hrest⟩ := exists_replicate_append 0 bs
  rw [encodeChars_replicate_append zeros hrest, List.map_append, List.map_replicate,
    UInt8.toNat_zero, Radix.recode_replicate_append _ _ _ (head?_map_toNat hrest), List.map_append,
    List.map_replicate, digit_zero]

/-- The bytes of a text over the alphabet are its numeral in radix 256. -/
theorem decodeChars_map_digit {ds : List Nat} (hds : ∀ d ∈ ds, d < 58) :
    decodeChars (ds.map digit) = some ((Radix.recode 58 256 ds).map UInt8.ofNat) := by
  obtain ⟨zeros, rest, rfl, hrest⟩ := exists_replicate_append 0 ds
  have hlt : ∀ d ∈ rest, d < 58 := fun d hd => hds d (List.mem_append_right _ hd)
  have hfront := head?_map_digit hlt hrest
  have hones : (List.replicate zeros 0 ++ rest).map digit =
      List.replicate zeros '1' ++ rest.map digit := by
    rw [List.map_append, List.map_replicate, digit_zero]
  have hvalues : (rest.map digit).mapM digitValue? = some rest :=
    mapM_digitValue?_eq_some_iff.mpr ⟨hlt, rfl⟩
  rw [decodeChars, hones, takeWhile_replicate_append zeros hfront,
    dropWhile_replicate_append zeros hfront, hvalues, Radix.recode_replicate_append _ _ _ hrest,
    List.map_append, List.map_replicate, List.map_replicate,
    ← significant_convert (by decide) (by decide) hlt (pow_le_byteCapacity rest.length)]
  rfl

/-- **What is read from a text** is its numeral in radix 256, if it is a text over the alphabet. -/
theorem decodeChars_eq_some_iff {cs : List Char} {bs : Bytes} :
    decodeChars cs = some bs ↔
      ∃ ds : List Nat, (∀ d ∈ ds, d < 58) ∧ ds.map digit = cs ∧
        (Radix.recode 58 256 ds).map UInt8.ofNat = bs := by
  constructor
  · intro h
    obtain ⟨ones, rest, rfl, hrest⟩ := exists_replicate_append '1' cs
    have hread := h
    rw [decodeChars, dropWhile_replicate_append ones hrest] at hread
    obtain ⟨values, hvalues, -⟩ := Option.bind_eq_some_iff.mp hread
    obtain ⟨hlt, rfl⟩ := mapM_digitValue?_eq_some_iff.mp hvalues
    have hall : ∀ d ∈ List.replicate ones 0 ++ values, d < 58 := by
      intro d hd
      rcases List.mem_append.mp hd with hd | hd
      · rw [List.eq_of_mem_replicate hd]
        decide
      · exact hlt d hd
    have hmap : (List.replicate ones 0 ++ values).map digit =
        List.replicate ones '1' ++ values.map digit := by
      rw [List.map_append, List.map_replicate, digit_zero]
    rw [← hmap, decodeChars_map_digit hall] at h
    exact ⟨_, hall, hmap, Option.some.inj h⟩
  · rintro ⟨ds, hds, rfl, rfl⟩
    exact decodeChars_map_digit hds

/-! ## The two ways -/

theorem decodeChars_encodeChars (bs : Bytes) : decodeChars (encodeChars bs) = some bs := by
  have hlt : ∀ d ∈ Radix.recode 256 58 (bs.map UInt8.toNat), d < 58 :=
    Radix.mem_recode_lt (by decide) _
  rw [encodeChars_eq, decodeChars_map_digit hlt,
    Radix.recode_recode (by decide) (mem_map_toNat_lt bs), map_ofNat_toNat]

theorem encodeChars_of_decodeChars {cs : List Char} {bs : Bytes} (h : decodeChars cs = some bs) :
    encodeChars bs = cs := by
  obtain ⟨ds, hds, rfl, rfl⟩ := decodeChars_eq_some_iff.mp h
  rw [encodeChars_eq, map_toNat_ofNat (Radix.mem_recode_lt (by decide) ds),
    Radix.recode_recode (by decide) hds]

theorem decode_encode (bs : Bytes) : decode (encode bs) = some bs := by
  rw [decode, encode, String.toList_ofList, decodeChars_encodeChars]

theorem encode_ne_empty {bs : Bytes} (h : bs ≠ []) : encode bs ≠ "" := by
  intro hempty
  have hbs := decode_encode bs
  rw [hempty] at hbs
  exact h (Option.some.inj hbs).symm

/-- **Each text that can be read** is the text of what is read from it. -/
theorem decode_eq_some_iff {text : String} {bs : Bytes} :
    decode text = some bs ↔ text = encode bs := by
  constructor
  · intro h
    rw [encode, encodeChars_of_decodeChars h, String.ofList_toList]
  · rintro rfl
    exact decode_encode bs

theorem exists_decode_iff {text : String} :
    (∃ bs, decode text = some bs) ↔ ∀ c ∈ text.toList, c ∈ alphabet := by
  rw [forall_mem_alphabet_iff]
  constructor
  · rintro ⟨bs, h⟩
    obtain ⟨ds, hds, hmap, -⟩ := decodeChars_eq_some_iff.mp h
    exact ⟨ds, hds, hmap⟩
  · rintro ⟨ds, hds, hmap⟩
    exact ⟨_, decodeChars_eq_some_iff.mpr ⟨ds, hds, hmap, rfl⟩⟩

/-- **Zeros in front of the bytes** are ones in front of the text. -/
theorem takeWhile_encodeChars (bs : Bytes) :
    (encodeChars bs).takeWhile (· == '1') = (bs.takeWhile (· == 0)).map fun _ => '1' := by
  obtain ⟨zeros, rest, rfl, hrest⟩ := exists_replicate_append 0 bs
  have hfront := head?_map_digit
    (fun d hd => Nat.digits_lt_base (by decide) (List.mem_reverse.mp hd))
    (Radix.head?_reverse_digits 58 (Nat.ofDigits 256 (rest.map UInt8.toNat).reverse))
  rw [encodeChars_replicate_append zeros hrest, takeWhile_replicate_append zeros hfront,
    takeWhile_replicate_append zeros hrest, List.map_replicate]

/-! ## The bijection -/

/-- **Base58 is a bijection** between byte sequences and texts over the alphabet, and no buffer of
either conversion ever loses a carry. A text is any sequence of characters, so a sequence of bytes
that is no Unicode text is one too, of characters below 256. -/
theorem encode_decode_bijection :
    (∀ bs, (∀ c ∈ (encode bs).toList, c ∈ alphabet) ∧ decode (encode bs) = some bs) ∧
    (∀ text, (∃ bs, decode text = some bs) ↔ ∀ c ∈ text.toList, c ∈ alphabet) ∧
    (∀ text bs, decode text = some bs ↔ text = encode bs) ∧
    (∀ bs, (encode bs).toList.takeWhile (· == '1') =
      (bs.takeWhile (· == 0)).map fun _ => '1') ∧
    (∀ (before : Bytes) (b : UInt8) (after : Bytes),
      (Radix.mulAdd 58 256 b.toNat (Radix.convert 256 58
        (digitCapacity (before ++ b :: after).length) (before.map UInt8.toNat))).2 = 0) ∧
    (∀ (before : List (Fin 58)) (d : Fin 58) (after : List (Fin 58)),
      (Radix.mulAdd 256 58 d (Radix.convert 58 256
        (byteCapacity (before ++ d :: after).length) (before.map Fin.val))).2 = 0) := by
  refine ⟨fun bs => ⟨exists_decode_iff.mp ⟨bs, decode_encode bs⟩, decode_encode bs⟩,
    fun _ => exists_decode_iff, fun _ _ => decode_eq_some_iff, fun bs => ?_,
    fun before b after => ?_, fun before d after => ?_⟩
  · rw [encode, String.toList_ofList, takeWhile_encodeChars]
  · have hlt := mem_map_toNat_lt (before ++ b :: after)
    rw [List.map_append, List.map_cons] at hlt
    refine Radix.carry_eq_zero (after.map UInt8.toNat) (by decide) hlt ?_
    simpa using pow_le_digitCapacity (before ++ b :: after).length
  · refine Radix.carry_eq_zero (after.map Fin.val) (by decide) (fun x hx => ?_) ?_
    · rw [← List.map_cons, ← List.map_append] at hx
      obtain ⟨e, -, rfl⟩ := List.mem_map.mp hx
      exact e.isLt
    · simpa using pow_le_byteCapacity (before ++ d :: after).length

end SpendScript.Base58
