import SpendScript.Hex

/-!
# Hexadecimal text and its bytes

Reading takes the digits of either case, in pairs and with nothing else between them, and so it is
the inverse of writing up to the case of letters.

* `digitValue?_digitChar`: a digit and its value; `mem_encodeChars`: what a text is made of;
* **`decodeChars_encodeChars`**: bytes are read back; `encodeChars_inj`;
* `IsDigit`, `digitValue?_eq_some_iff`: digits of either case;
* **`decodeChars_eq_some_iff`**, `exists_decodeChars_iff`: the texts that can be read;
* `utf8`, `forall_mem_utf8_iff`: texts as bytes;
* **`decode_iff_toLower`**: reading and writing.
-/

namespace SpendScript.Hex

theorem digitValue?_digitChar {n : Nat} (h : n < 16) : digitValue? (Nat.digitChar n) = some n := by
  have hall : ∀ n < 16, digitValue? (Nat.digitChar n) = some n := by decide
  exact hall n h

theorem encodeChars_cons (b : UInt8) (bs : Bytes) :
    encodeChars (b :: bs) =
      Nat.digitChar (b.toNat / 16) :: Nat.digitChar (b.toNat % 16) :: encodeChars bs := rfl

theorem mem_encodeChars {c : Char} {bs : Bytes} (h : c ∈ encodeChars bs) :
    ∃ n < 16, Nat.digitChar n = c := by
  obtain ⟨b, -, hc⟩ := List.mem_flatMap.mp h
  have hb := b.toNat_lt
  simp only [digits, List.mem_cons, List.not_mem_nil, or_false] at hc
  rcases hc with rfl | rfl
  · exact ⟨b.toNat / 16, by omega, rfl⟩
  · exact ⟨b.toNat % 16, by omega, rfl⟩

/-- **Bytes are read back** from their digits. -/
theorem decodeChars_encodeChars (bs : Bytes) : decodeChars (encodeChars bs) = some bs := by
  induction bs with
  | nil => rfl
  | cons b bs ih =>
    have hb := b.toNat_lt
    have hhigh := digitValue?_digitChar (show b.toNat / 16 < 16 by omega)
    have hlow := digitValue?_digitChar (show b.toNat % 16 < 16 by omega)
    have hvalue : 16 * (b.toNat / 16) + b.toNat % 16 = b.toNat := Nat.div_add_mod b.toNat 16
    simp only [encodeChars_cons, decodeChars, hhigh, hlow, ih, hvalue, UInt8.ofNat_toNat]

theorem encodeChars_inj {a b : Bytes} : encodeChars a = encodeChars b ↔ a = b := by
  constructor
  · intro h
    have hread := decodeChars_encodeChars a
    rw [h, decodeChars_encodeChars] at hread
    exact (Option.some.inj hread).symm
  · rintro rfl
    rfl

/-! ## Digits of either case -/

/-- The code of a digit, of either case. -/
def IsDigit (code : Nat) : Prop :=
  ('0'.toNat ≤ code ∧ code ≤ '9'.toNat) ∨ ('a'.toNat ≤ code ∧ code ≤ 'f'.toNat) ∨
    ('A'.toNat ≤ code ∧ code ≤ 'F'.toNat)

theorem isDigit_iff (code : Nat) :
    IsDigit code ↔
      (48 ≤ code ∧ code ≤ 57) ∨ (97 ≤ code ∧ code ≤ 102) ∨ (65 ≤ code ∧ code ≤ 70) := Iff.rfl

theorem digitValue?_eq (c : Char) :
    digitValue? c =
      if 48 ≤ c.toNat ∧ c.toNat ≤ 57 then some (c.toNat - 48)
      else if 97 ≤ c.toNat ∧ c.toNat ≤ 102 then some (c.toNat - 97 + 10)
      else if 65 ≤ c.toNat ∧ c.toNat ≤ 70 then some (c.toNat - 65 + 10)
      else none := rfl

theorem toNat_digitChar {n : Nat} (h : n < 16) :
    (Nat.digitChar n).toNat = if n < 10 then 48 + n else 87 + n := by
  have hall : ∀ n < 16, (Nat.digitChar n).toNat = if n < 10 then 48 + n else 87 + n := by decide
  exact hall n h

theorem toNat_toLower (c : Char) :
    c.toLower.toNat = if 65 ≤ c.toNat ∧ c.toNat ≤ 90 then c.toNat + 32 else c.toNat := by
  have hupper : (c.val ≥ 'A'.val ∧ c.val ≤ 'Z'.val) ↔ (65 ≤ c.toNat ∧ c.toNat ≤ 90) := Iff.rfl
  unfold Char.toLower
  split
  · next h =>
    have hbound : c.val.toNat ≤ 90 := (hupper.mp h).2
    rw [if_pos (hupper.mp h)]
    change (c.val.toNat + 32) % 4294967296 = c.val.toNat + 32
    omega
  · next h => rw [if_neg (mt hupper.mpr h)]

/-- **A digit in lowercase** is the one that its value is written with. -/
theorem digitValue?_eq_some_iff {c : Char} {n : Nat} :
    digitValue? c = some n ↔ n < 16 ∧ Nat.digitChar n = c.toLower := by
  have hcode : digitValue? c = some n ↔
      n < 16 ∧ (if n < 10 then 48 + n else 87 + n) = c.toLower.toNat := by
    rw [digitValue?_eq, toNat_toLower]
    grind
  rw [hcode]
  refine and_congr_right fun hn => ?_
  rw [← toNat_digitChar hn, Char.toNat_inj]

theorem isDigit_iff_exists {c : Char} : IsDigit c.toNat ↔ ∃ n, digitValue? c = some n := by
  rw [isDigit_iff, digitValue?_eq]
  split
  · next h => exact iff_of_true (Or.inl h) ⟨_, rfl⟩
  · split
    · next h => exact iff_of_true (Or.inr (Or.inl h)) ⟨_, rfl⟩
    · split
      · next h => exact iff_of_true (Or.inr (Or.inr h)) ⟨_, rfl⟩
      · simp [*]

/-! ## Texts of either case -/

theorem length_encodeChars (bs : Bytes) : (encodeChars bs).length = 2 * bs.length := by
  induction bs with
  | nil => rfl
  | cons b bs ih =>
    rw [encodeChars_cons, List.length_cons, List.length_cons, List.length_cons, ih]
    omega

theorem digitValue?_lt {c : Char} {n : Nat} (h : digitValue? c = some n) : n < 16 :=
  (digitValue?_eq_some_iff.mp h).1

theorem decodeChars_cons_cons_eq_some_iff {high low : Char} {rest : List Char} {bs : Bytes} :
    decodeChars (high :: low :: rest) = some bs ↔
      ∃ b tail, bs = b :: tail ∧ digitValue? high = some (b.toNat / 16) ∧
        digitValue? low = some (b.toNat % 16) ∧ decodeChars rest = some tail := by
  rw [decodeChars]
  constructor
  · intro h
    split at h
    · next x y tail hx hy hrest =>
      have hx' := digitValue?_lt hx
      have hy' := digitValue?_lt hy
      have hvalue : (UInt8.ofNat (16 * x + y)).toNat = 16 * x + y :=
        UInt8.toNat_ofNat_of_lt' (show 16 * x + y < 256 by omega)
      refine ⟨_, tail, (Option.some.inj h).symm, ?_, ?_, hrest⟩
      · rw [hvalue, hx]
        exact congrArg some (by omega)
      · rw [hvalue, hy]
        exact congrArg some (by omega)
    · cases h
  · rintro ⟨b, tail, rfl, hhigh, hlow, hrest⟩
    rw [hhigh, hlow, hrest]
    simp only [Nat.div_add_mod, UInt8.ofNat_toNat]

/-- **What is read from a text** is written as the text in lowercase. -/
theorem decodeChars_eq_some_iff : ∀ {cs : List Char} {bs : Bytes},
    decodeChars cs = some bs ↔ encodeChars bs = cs.map Char.toLower
  | [], [] | [], _ :: _ | [_], [] | [_], _ :: _ => by simp [decodeChars, encodeChars, digits]
  | high :: low :: rest, [] => by simp [decodeChars_cons_cons_eq_some_iff, encodeChars]
  | high :: low :: rest, b :: bs => by
    have hb := b.toNat_lt
    have hhigh : digitValue? high = some (b.toNat / 16) ↔
        Nat.digitChar (b.toNat / 16) = high.toLower := by
      rw [digitValue?_eq_some_iff, and_iff_right (by omega)]
    have hlow : digitValue? low = some (b.toNat % 16) ↔
        Nat.digitChar (b.toNat % 16) = low.toLower := by
      rw [digitValue?_eq_some_iff, and_iff_right (by omega)]
    rw [decodeChars_cons_cons_eq_some_iff, encodeChars_cons, List.map_cons, List.map_cons,
      List.cons_eq_cons, List.cons_eq_cons, ← hhigh, ← hlow, ← decodeChars_eq_some_iff]
    constructor
    · rintro ⟨_, _, hcons, h⟩
      obtain ⟨rfl, rfl⟩ := List.cons.inj hcons
      exact h
    · intro h
      exact ⟨b, bs, rfl, h⟩

theorem exists_decodeChars : ∀ {cs : List Char}, cs.length % 2 = 0 →
    (∀ c ∈ cs, IsDigit c.toNat) → ∃ bs, decodeChars cs = some bs
  | [], _, _ => ⟨[], rfl⟩
  | high :: low :: rest, heven, hall => by
    obtain ⟨hhigh, hlow, hrest⟩ : IsDigit high.toNat ∧ IsDigit low.toNat ∧
        ∀ c ∈ rest, IsDigit c.toNat := by simpa using hall
    obtain ⟨x, hx⟩ := isDigit_iff_exists.mp hhigh
    obtain ⟨y, hy⟩ := isDigit_iff_exists.mp hlow
    have heven' : rest.length % 2 = 0 := by
      rw [List.length_cons, List.length_cons] at heven
      omega
    obtain ⟨bs, hbs⟩ := exists_decodeChars heven' hrest
    exact ⟨UInt8.ofNat (16 * x + y) :: bs, by rw [decodeChars, hx, hy, hbs]⟩

/-- **The texts that can be read** are those of digits in pairs. -/
theorem exists_decodeChars_iff {cs : List Char} :
    (∃ bs, decodeChars cs = some bs) ↔ cs.length % 2 = 0 ∧ ∀ c ∈ cs, IsDigit c.toNat := by
  constructor
  · rintro ⟨bs, h⟩
    have htext := decodeChars_eq_some_iff.mp h
    constructor
    · have hlength := congrArg List.length htext
      rw [length_encodeChars, List.length_map] at hlength
      omega
    · intro c hc
      have hmem : c.toLower ∈ encodeChars bs := htext ▸ List.mem_map_of_mem hc
      obtain ⟨n, hn, hdigit⟩ := mem_encodeChars hmem
      exact isDigit_iff_exists.mpr ⟨n, digitValue?_eq_some_iff.mpr ⟨hn, hdigit⟩⟩
  · rintro ⟨heven, hall⟩
    exact exists_decodeChars heven hall

/-! ## Texts as bytes -/

/-- The bytes of a text in UTF-8. -/
def utf8 (text : String) : Bytes := text.toUTF8.data.toList

theorem utf8_eq (text : String) : utf8 text = text.toList.flatMap String.utf8EncodeChar := by
  have h : text.toUTF8 = (text.toList.flatMap String.utf8EncodeChar).toByteArray :=
    String.utf8Encode_toList.symm
  rw [utf8, h, List.toList_data_toByteArray]

theorem utf8EncodeChar_of_lt {c : Char} (h : c.toNat < 128) :
    String.utf8EncodeChar c = [UInt8.ofNat c.toNat] :=
  if_pos (Nat.le_of_lt_succ h)

/-- Characters beyond 127 end with a byte beyond 127. -/
theorem exists_mem_utf8EncodeChar {c : Char} (h : 128 ≤ c.toNat) :
    ∃ b ∈ String.utf8EncodeChar c, 128 ≤ b.toNat := by
  -- the last byte of all longer forms is the same: six bits behind a mark
  have hlast : UInt8.ofNat (c.toNat % 64 + 128) ∈ String.utf8EncodeChar c := by
    unfold String.utf8EncodeChar
    dsimp only
    rw [if_neg (show ¬ c.val.toNat ≤ 127 from Nat.not_le.mpr h)]
    split
    · exact List.mem_cons_of_mem _ List.mem_cons_self
    · split
      · exact List.mem_cons_of_mem _ (List.mem_cons_of_mem _ List.mem_cons_self)
      · exact List.mem_cons_of_mem _
          (List.mem_cons_of_mem _ (List.mem_cons_of_mem _ List.mem_cons_self))
  refine ⟨_, hlast, ?_⟩
  rw [UInt8.toNat_ofNat_of_lt' (show c.toNat % 64 + 128 < 256 by omega)]
  omega

theorem IsDigit.lt {code : Nat} (h : IsDigit code) : code < 128 := by
  rw [isDigit_iff] at h
  omega

theorem forall_mem_utf8EncodeChar_iff {c : Char} :
    (∀ b ∈ String.utf8EncodeChar c, IsDigit b.toNat) ↔ IsDigit c.toNat := by
  by_cases hc : c.toNat < 128
  · have hcode : (UInt8.ofNat c.toNat).toNat = c.toNat :=
      UInt8.toNat_ofNat_of_lt' (show c.toNat < 256 by omega)
    rw [utf8EncodeChar_of_lt hc, List.forall_mem_singleton, hcode]
  · obtain ⟨b, hb, hle⟩ := exists_mem_utf8EncodeChar (Nat.not_lt.mp hc)
    refine iff_of_false (fun h => ?_) (fun h => hc h.lt)
    exact absurd (h b hb).lt (Nat.not_lt.mpr hle)

theorem forall_mem_utf8_iff (text : String) :
    (∀ b ∈ utf8 text, IsDigit b.toNat) ↔ ∀ c ∈ text.toList, IsDigit c.toNat := by
  rw [utf8_eq, List.forall_mem_flatMap]
  exact forall₂_congr fun c _ => forall_mem_utf8EncodeChar_iff

/-- A text of digits has one byte for each character. -/
theorem utf8_of_digits {text : String} (h : ∀ c ∈ text.toList, IsDigit c.toNat) :
    utf8 text = text.toList.map fun c => UInt8.ofNat c.toNat := by
  rw [utf8_eq, List.map_eq_flatMap, List.flatMap_def, List.flatMap_def]
  exact congrArg List.flatten (List.map_congr_left fun c hc => utf8EncodeChar_of_lt (h c hc).lt)

/-! ## The codec -/

theorem decode_encode (bs : Bytes) : decode (encode bs) = some bs := by
  rw [decode, encode, String.toList_ofList, decodeChars_encodeChars]

theorem decode_eq_some_iff {text : String} {bs : Bytes} :
    decode text = some bs ↔ encode bs = text.toLower := by
  have hlower : text.toLower.toList = text.toList.map Char.toLower := String.toList_map
  rw [decode, decodeChars_eq_some_iff, encode, ← String.toList_inj, String.toList_ofList, hlower]

theorem exists_decode_iff {text : String} :
    (∃ bs, decode text = some bs) ↔
      (utf8 text).length % 2 = 0 ∧ ∀ b ∈ utf8 text, IsDigit b.toNat := by
  rw [forall_mem_utf8_iff]
  refine exists_decodeChars_iff.trans (and_congr_left fun h => ?_)
  rw [utf8_of_digits h, List.length_map]

/-- **Reading undoes writing, and writing undoes reading up to case.** The texts that can be read
are those of an even number of bytes that are all digits; each is the text of what is read from it
with its letters in either case, so that two of them are read as the same bytes exactly if they are
the same in lowercase. A text is any sequence of characters, so a sequence of bytes that is no
Unicode text is one too, of characters below 256. -/
theorem decode_iff_toLower :
    (∀ bs, decode (encode bs) = some bs) ∧
    (∀ text, (∃ bs, decode text = some bs) ↔
      (utf8 text).length % 2 = 0 ∧ ∀ b ∈ utf8 text, IsDigit b.toNat) ∧
    (∀ text, (∃ bs, decode text = some bs) ↔
      text.toList.length % 2 = 0 ∧ ∀ c ∈ text.toList, IsDigit c.toNat) ∧
    (∀ text bs, decode text = some bs ↔ encode bs = text.toLower) ∧
    (∀ text text' bs bs', decode text = some bs → decode text' = some bs' →
      (bs = bs' ↔ text.toLower = text'.toLower)) := by
  refine ⟨decode_encode, fun _ => exists_decode_iff, fun _ => exists_decodeChars_iff,
    fun _ _ => decode_eq_some_iff, fun text text' bs bs' h h' => ?_⟩
  rw [← decode_eq_some_iff.mp h, ← decode_eq_some_iff.mp h', encode, encode, String.ofList_inj,
    encodeChars_inj]

/-- The same bytes in digits of mixed case. -/
theorem decode_iff_toLower_mixed :
    decode "0aFf" = some [0x0a, 0xff] ∧ decode "0AfF" = some [0x0a, 0xff] ∧
      "0aFf".toLower = "0AfF".toLower := by
  have h : decode "0aFf" = some [0x0a, 0xff] := by decide
  have h' : decode "0AfF" = some [0x0a, 0xff] := by decide
  exact ⟨h, h', (decode_iff_toLower.2.2.2.2 _ _ _ _ h h').mp rfl⟩

end SpendScript.Hex
