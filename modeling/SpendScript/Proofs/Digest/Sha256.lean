import Mathlib.Algebra.Group.Nat.Defs
import Mathlib.Data.List.GetD
import SpendScript.Digest.Sha256
import SpendScript.Proofs.Digest.Standard

/-!
# SHA-256 is the standard's digest

A message is compressed as it comes and only its end is padded. That makes no difference: the blocks
compressed are those of the padded message, and each is compressed as the standard says.

* `toBitVec_rotateRight` and the other equations of functions on words;
* `map_wordsOf`, **`map_schedule`**: the message schedule; `bits_foldl_round`, **`bits_compress`**:
  the rounds and the compression of one block;
* `absorb_append`, `absorb_add`, **`bits_absorb`**: the blocks at the front of a message;
* **`append_tail`**: the last blocks end the padded message;
* **`bytes_hash`**: the digest.
-/

namespace SpendScript.Sha256

open Standard (roundConstant blockWord scheduleWord working hashValue pad zeroCount bigEndian)

/-! ## Functions on words -/

theorem toBitVec_rotateRight (count : Nat) (hpos : 0 < count) (hlt : count < 32) (x : UInt32) :
    (rotateRight (UInt32.ofNat count) x).toBitVec = x.toBitVec.rotateRight count := by
  have hcount : (UInt32.ofNat count).toNat = count :=
    UInt32.toNat_ofNat_of_lt' (Nat.lt_trans hlt (by decide))
  have hleft : (32 - UInt32.ofNat count).toNat = 32 - count := by
    rw [UInt32.toNat_sub_of_le, hcount]
    · rfl
    · rw [UInt32.le_iff_toNat_le, hcount]
      exact Nat.le_of_lt hlt
  have hleft32 : (32 - count) % 32 = 32 - count := Nat.mod_eq_of_lt (by omega)
  apply BitVec.eq_of_toNat_eq
  rw [UInt32.toNat_toBitVec, rotateRight, UInt32.toNat_or, UInt32.toNat_shiftRight,
    UInt32.toNat_shiftLeft, hcount, hleft, hleft32, BitVec.rotateRight_def, Nat.mod_eq_of_lt hlt,
    BitVec.toNat_or, BitVec.toNat_ushiftRight, BitVec.toNat_shiftLeft]
  rfl

theorem toBitVec_bigSigma0 (x : UInt32) :
    (bigSigma0 x).toBitVec = Standard.bigSigma0 x.toBitVec := by
  have h2 := toBitVec_rotateRight 2 (by decide) (by decide) x
  have h13 := toBitVec_rotateRight 13 (by decide) (by decide) x
  have h22 := toBitVec_rotateRight 22 (by decide) (by decide) x
  rw [Standard.bigSigma0, ← h2, ← h13, ← h22]
  rfl

theorem toBitVec_bigSigma1 (x : UInt32) :
    (bigSigma1 x).toBitVec = Standard.bigSigma1 x.toBitVec := by
  have h6 := toBitVec_rotateRight 6 (by decide) (by decide) x
  have h11 := toBitVec_rotateRight 11 (by decide) (by decide) x
  have h25 := toBitVec_rotateRight 25 (by decide) (by decide) x
  rw [Standard.bigSigma1, ← h6, ← h11, ← h25]
  rfl

theorem toBitVec_smallSigma0 (x : UInt32) :
    (smallSigma0 x).toBitVec = Standard.smallSigma0 x.toBitVec := by
  have h7 := toBitVec_rotateRight 7 (by decide) (by decide) x
  have h18 := toBitVec_rotateRight 18 (by decide) (by decide) x
  rw [Standard.smallSigma0, ← h7, ← h18]
  rfl

theorem toBitVec_smallSigma1 (x : UInt32) :
    (smallSigma1 x).toBitVec = Standard.smallSigma1 x.toBitVec := by
  have h17 := toBitVec_rotateRight 17 (by decide) (by decide) x
  have h19 := toBitVec_rotateRight 19 (by decide) (by decide) x
  rw [Standard.smallSigma1, ← h17, ← h19]
  rfl

/-! ## The message schedule -/

theorem toNat_append_byte {width : Nat} (x : BitVec width) (b : UInt8) :
    (x ++ b.toBitVec).toNat = x.toNat * 256 + b.toNat := by
  rw [BitVec.toNat_append, UInt8.toNat_toBitVec, ← Nat.shiftLeft_add_eq_or_of_lt b.toNat_lt,
    Nat.shiftLeft_eq]

theorem toBitVec_ofNat_toNatBE (b0 b1 b2 b3 : UInt8) :
    (UInt32.ofNat (Bytes.toNatBE [b0, b1, b2, b3])).toBitVec =
      b0.toBitVec ++ b1.toBitVec ++ b2.toBitVec ++ b3.toBitVec := by
  apply BitVec.eq_of_toNat_eq
  have h0 := b0.toNat_lt
  have h1 := b1.toNat_lt
  have h2 := b2.toNat_lt
  have h3 := b3.toNat_lt
  have hvalue : Bytes.toNatBE [b0, b1, b2, b3] =
      b3.toNat + 256 * (b2.toNat + 256 * (b1.toNat + 256 * b0.toNat)) := rfl
  rw [toNat_append_byte, toNat_append_byte, toNat_append_byte, UInt32.toNat_toBitVec,
    UInt32.toNat_ofNat_of_lt' (by change _ < 2 ^ 32; omega), UInt8.toNat_toBitVec, hvalue]
  omega

theorem blockWord_drop (block : Bytes) (j : Nat) :
    blockWord (block.drop 4) j = blockWord block (j + 1) := by
  have h (i : Nat) : 4 + (4 * j + i) = 4 * (j + 1) + i := by omega
  have h0 : 4 + 4 * j = 4 * (j + 1) := by omega
  simp only [blockWord, List.getD_eq_getElem?_getD, List.getElem?_drop, h, h0]

theorem map_wordsOf {block : Bytes} {count : Nat} (h : block.length = 4 * count) :
    (wordsOf block).map UInt32.toBitVec = (List.range count).map (blockWord block) := by
  induction count generalizing block with
  | zero =>
    rw [List.length_eq_zero_iff.mp h]
    rfl
  | succ count ih =>
    match block, h with
    | b0 :: b1 :: b2 :: b3 :: rest, h =>
      have hrest : rest.length = 4 * count := by simp at h; omega
      have hfirst : blockWord (b0 :: b1 :: b2 :: b3 :: rest) 0 =
          b0.toBitVec ++ b1.toBitVec ++ b2.toBitVec ++ b3.toBitVec := by
        simp [blockWord]
      have hlater (j : Nat) : blockWord (b0 :: b1 :: b2 :: b3 :: rest) (j + 1) = blockWord rest j :=
        (blockWord_drop (b0 :: b1 :: b2 :: b3 :: rest) j).symm
      rw [wordsOf, List.map_cons, ih hrest, toBitVec_ofNat_toNatBE, ← hfirst,
        List.range_succ_eq_map, List.map_cons, List.map_map]
      simp only [Function.comp_def, hlater]

theorem scheduleWord_of_lt {block : Bytes} {t : Nat} (h : t < 16) :
    scheduleWord block t = blockWord block t := by
  rw [scheduleWord, if_pos h]

theorem scheduleWord_of_le {block : Bytes} {t : Nat} (h : 16 ≤ t) :
    scheduleWord block t = Standard.smallSigma1 (scheduleWord block (t - 2)) +
      scheduleWord block (t - 7) + Standard.smallSigma0 (scheduleWord block (t - 15)) +
      scheduleWord block (t - 16) := by
  rw [scheduleWord, if_neg (by omega)]

theorem getD_of_map_eq {ws : List UInt32} {f : Nat → Standard.Word} {t i : Nat}
    (h : ws.map UInt32.toBitVec = ((List.range t).map f).reverse) (hi : i < t) :
    (ws.getD i 0).toBitVec = f (t - 1 - i) := by
  have hlength : ws.length = t := by simpa using congrArg List.length h
  have hword := List.getElem_of_eq h (i := i) (by simpa [hlength] using hi)
  rw [List.getD_eq_getElem _ _ (hlength ▸ hi)]
  simpa using hword

/-- **A schedule held newest first** goes on as the standard's does. -/
theorem map_extend {block : Bytes} {ws : List UInt32} {t : Nat} (h16 : 16 ≤ t)
    (h : ws.map UInt32.toBitVec = ((List.range t).map (scheduleWord block)).reverse)
    (count : Nat) :
    (extend count ws).map UInt32.toBitVec =
      ((List.range (t + count)).map (scheduleWord block)).reverse := by
  induction count generalizing ws t with
  | zero => exact h
  | succ count ih =>
    have h1 := getD_of_map_eq h (i := 1) (by omega)
    have h6 := getD_of_map_eq h (i := 6) (by omega)
    have h14 := getD_of_map_eq h (i := 14) (by omega)
    have h15 := getD_of_map_eq h (i := 15) (by omega)
    have hnew : (smallSigma1 (ws.getD 1 0) + ws.getD 6 0 + smallSigma0 (ws.getD 14 0) +
        ws.getD 15 0).toBitVec = scheduleWord block t := by
      rw [scheduleWord_of_le h16, UInt32.toBitVec_add, UInt32.toBitVec_add, UInt32.toBitVec_add,
        toBitVec_smallSigma1, toBitVec_smallSigma0, h1, h6, h14, h15, Nat.sub_sub, Nat.sub_sub,
        Nat.sub_sub, Nat.sub_sub]
    rw [extend, Nat.add_comm count 1, ← Nat.add_assoc]
    refine ih (Nat.le_succ_of_le h16) ?_
    rw [List.map_cons, hnew, h, List.range_succ, List.map_append, List.reverse_append]
    rfl

/-- **The message schedule** of a block is the standard's. -/
theorem map_schedule {block : Bytes} (h : block.length = 64) :
    (schedule (wordsOf block)).map UInt32.toBitVec = (List.range 64).map (scheduleWord block) := by
  have hwords : (wordsOf block).map UInt32.toBitVec = (List.range 16).map (scheduleWord block) := by
    rw [map_wordsOf (show block.length = 4 * 16 from h)]
    exact List.map_congr_left fun t ht => (scheduleWord_of_lt (List.mem_range.mp ht)).symm
  have hfirst : (wordsOf block).reverse.map UInt32.toBitVec =
      ((List.range 16).map (scheduleWord block)).reverse := by
    rw [List.map_reverse, hwords]
  rw [schedule, List.map_reverse, map_extend (Nat.le_refl 16) hfirst 48, List.reverse_reverse]

/-! ## One block -/

/-- The chaining words as words of the standard. -/
def State.bits (s : State) : Standard.Words :=
  ⟨s.a.toBitVec, s.b.toBitVec, s.c.toBitVec, s.d.toBitVec, s.e.toBitVec, s.f.toBitVec, s.g.toBitVec,
    s.h.toBitVec⟩

theorem map_roundConstants :
    roundConstants.map UInt32.toBitVec = (List.range 64).map roundConstant := by
  decide +kernel

theorem bits_initial (padded : Bytes) : initial.bits = hashValue padded 0 := by
  have h : initial.bits = hashValue [] 0 := by decide +kernel
  exact h

theorem bits_round {s : State} {value : Standard.Words} {block : Bytes} {t : Nat} {k w : UInt32}
    (hs : s.bits = working value block t) (hk : k.toBitVec = roundConstant t)
    (hw : w.toBitVec = scheduleWord block t) :
    (round s (k, w)).bits = working value block (t + 1) := by
  rw [working, ← hs, ← hk, ← hw]
  simp only [State.bits, ← toBitVec_bigSigma0, ← toBitVec_bigSigma1]
  rfl

theorem bits_foldl_round (s : State) {block : Bytes} {pairs : List (UInt32 × UInt32)} {count : Nat}
    (h : pairs.map (fun kw => (kw.1.toBitVec, kw.2.toBitVec)) =
      (List.range count).map fun t => (roundConstant t, scheduleWord block t)) :
    (pairs.foldl round s).bits = working s.bits block count := by
  induction count generalizing pairs with
  | zero =>
    rw [List.map_eq_nil_iff.mp h]
    rfl
  | succ count ih =>
    rw [List.range_succ, List.map_append] at h
    obtain ⟨before, last, rfl, hbefore, hlast⟩ := List.map_eq_append_iff.mp h
    obtain ⟨⟨k, w⟩, rfl, hkw⟩ := List.map_eq_singleton_iff.mp hlast
    obtain ⟨hk, hw⟩ := Prod.mk.inj hkw
    rw [List.foldl_append]
    exact bits_round (ih hbefore) hk hw

/-- **One block** is compressed as the standard says. -/
theorem bits_compress (s : State) {block : Bytes} (h : block.length = 64) :
    (compress s block).bits = Standard.compress s.bits block := by
  have hpairs : (roundConstants.zip (schedule (wordsOf block))).map
      (fun kw => (kw.1.toBitVec, kw.2.toBitVec)) =
        (List.range 64).map fun t => (roundConstant t, scheduleWord block t) := by
    change List.map (Prod.map UInt32.toBitVec UInt32.toBitVec) _ = _
    rw [← List.zip_map, map_roundConstants, map_schedule h, List.zip_map']
  have hrounds := bits_foldl_round s hpairs
  rw [Standard.compress, ← hrounds]
  simp only [compress, State.add, State.bits, UInt32.toBitVec_add, BitVec.add_comm]

/-! ## The blocks of a message -/

theorem absorb_add (a b : Nat) (s : State) (message : Bytes) :
    absorb (a + b) s message = absorb b (absorb a s message).1 (absorb a s message).2 := by
  induction a generalizing s message with
  | zero => rw [Nat.zero_add, absorb]
  | succ a ih => rw [Nat.add_right_comm, absorb, ih, absorb]

theorem absorb_snd (count : Nat) (s : State) (message : Bytes) :
    (absorb count s message).2 = message.drop (64 * count) := by
  induction count generalizing s message with
  | zero => rw [absorb, Nat.mul_zero, List.drop_zero]
  | succ count ih => rw [absorb, ih, List.drop_drop, Nat.mul_succ, Nat.add_comm]

theorem absorb_append {count : Nat} {message : Bytes} (h : 64 * count ≤ message.length) (s : State)
    (more : Bytes) :
    absorb count s (message ++ more) =
      ((absorb count s message).1, (absorb count s message).2 ++ more) := by
  induction count generalizing s message with
  | zero => rfl
  | succ count ih =>
    have hrest : 64 * count ≤ (message.drop 64).length := by
      rw [List.length_drop]
      omega
    rw [absorb, absorb, List.take_append_of_le_length (by omega),
      List.drop_append_of_le_length (by omega), ih hrest]

/-- Bytes behind the blocks are left alone. -/
theorem absorb_front {count : Nat} {front : Bytes} (h : front.length = 64 * count) (s : State)
    (rest : Bytes) : absorb count s (front ++ rest) = ((absorb count s front).1, rest) := by
  rw [absorb_append (Nat.le_of_eq h.symm), absorb_snd, List.drop_of_length_le (Nat.le_of_eq h),
    List.nil_append]

/-- **The blocks at the front** are compressed as the standard says. -/
theorem bits_absorb {padded : Bytes} {count : Nat} (h : 64 * count ≤ padded.length) :
    (absorb count initial padded).1.bits = hashValue padded count := by
  induction count with
  | zero => exact bits_initial padded
  | succ count ih =>
    have hblock : (Standard.block padded count).length = 64 := by
      rw [Standard.block, List.length_take, List.length_drop]
      omega
    rw [absorb_add, absorb, absorb, absorb_snd, hashValue, ← ih (by omega)]
    exact bits_compress _ hblock

/-! ## The end of a message -/

theorem zeroCount_eq (length : Nat) : zeroCount length = (119 - length % 64) % 64 := by
  rw [zeroCount, Nat.find_eq_iff]
  refine ⟨by omega, fun k hk => ?_⟩
  omega

theorem bigEndian_eq (width n : Nat) : bigEndian width n = Bytes.ofNatBE width n := by
  have hlittle : Bytes.ofNatLE width n =
      (List.range width).map fun i => UInt8.ofNat (n / 256 ^ i) := by
    induction width generalizing n with
    | zero => rfl
    | succ width ih =>
      rw [Bytes.ofNatLE_succ, ih, List.range_succ_eq_map, List.map_cons, List.map_map, Nat.pow_zero,
        Nat.div_one]
      refine congrArg _ (List.map_congr_left fun i _ => ?_)
      rw [Function.comp_apply, Nat.div_div_eq_div_mul, Nat.pow_succ']
  rw [Bytes.ofNatBE, hlittle]
  refine List.ext_getElem (by simp [bigEndian]) fun i hi _ => ?_
  simp [bigEndian]

/-- **The last blocks end the padded message.** -/
theorem append_tail {count : Nat} {front rest : Bytes} (hfront : front.length = 64 * count)
    (hrest : rest.length < 64) :
    front ++ tail rest (front ++ rest).length = pad (front ++ rest) := by
  have hzeros : (if rest.length + 9 ≤ 64 then 64 else 128) - 9 - rest.length =
      zeroCount (front ++ rest).length := by
    rw [zeroCount_eq, List.length_append, hfront]
    split <;> omega
  rw [tail, hzeros, ← bigEndian_eq, pad, ← List.append_assoc, ← List.append_assoc, List.append_cons]

theorem length_pad_mod (message : Bytes) : (pad message).length % 64 = 0 := by
  have hlength : (pad message).length = message.length + 1 + zeroCount message.length + 8 := by
    simp [pad, bigEndian]
    omega
  rw [hlength, zeroCount_eq]
  omega

/-- **The state after a message** is the last hash value of the standard. -/
theorem bits_run (message : Bytes) :
    (run message).bits = hashValue (pad message) ((pad message).length / 64) := by
  obtain ⟨count, front, rest, rfl, hfront, hrest⟩ : ∃ count front rest, message = front ++ rest ∧
      front.length = 64 * count ∧ rest.length < 64 := by
    refine ⟨message.length / 64, _, _, (List.take_append_drop (64 * (message.length / 64)) _).symm,
      ?_, ?_⟩
    · rw [List.length_take]
      omega
    · rw [List.length_drop]
      omega
  have hcount : (front ++ rest).length / 64 = count := by
    rw [List.length_append]
    omega
  have hpad := append_tail hfront hrest
  generalize htail : tail rest (front ++ rest).length = last at hpad
  have hblocks : (pad (front ++ rest)).length / 64 = count + last.length / 64 := by
    rw [← hpad, List.length_append]
    omega
  have hrun : run (front ++ rest) =
      (absorb (last.length / 64) (absorb count initial front).1 last).1 := by
    rw [run, hcount, absorb_front hfront]
    simp only [htail]
  rw [hrun, ← bits_absorb (by omega), hblocks, absorb_add, ← hpad, absorb_front hfront]

/-- **The digest is the standard's.** Padding the whole message, cutting it into blocks of 64 bytes
and compressing these in order gives the same bytes. -/
theorem bytes_hash (message : Bytes) :
    (hash message).bytes = Standard.hash message ∧ 64 ∣ (pad message).length := by
  refine ⟨?_, Nat.dvd_of_mod_eq_zero (length_pad_mod message)⟩
  change (run message).words.flatMap (fun w => Bytes.ofNatBE 4 w.toNat) = _
  rw [Standard.hash, ← bits_run]
  simp only [bigEndian_eq, State.words, State.bits]
  rfl

end SpendScript.Sha256
