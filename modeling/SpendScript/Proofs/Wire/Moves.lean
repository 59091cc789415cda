import SpendScript.Proofs.Wire.ReadBack

/-!
# Where a read leaves the reader

A read never goes back. If it succeeds, it has passed the bytes of a field. If it fails, it stands in
front of the piece that is missing or behind the number that does not fit. So a failed read has not
moved just when its very first piece is missing: bytes behind their number, numbers behind their mark
and integers that are narrowed can fail after they have moved.

* `Decoder.Moves`, **`Decoder.Moves.bind`**: how far a decoder moves, whatever comes of it;
* `WireError.Explains`, `Decoder.Explained`, **`Decoder.Explained.bind`**: where a failed read ends;
* `Field.Stands`: what is passed in reading a field;
* `Shape.moves_decode`, `Shape.explained_decode`, `Shape.takes_decode`: the same for every field;
* `Reader.In`, `Reader.after`, `Reader.In.after`: reads one after the other, failed ones included;
* **`Shape.decode_after`**: every read, from wherever earlier ones have led.
-/

namespace SpendScript

open CompactSize (Form)

/-! ## Moves, whatever comes of them -/

namespace Decoder

variable {α β : Type} {d : Decoder α} {f : α → Decoder β} {first : Nat}

/-- With fewer than `first` bytes ahead the decoder does not move; with more it moves over that many
at least, whatever comes of it. -/
structure Moves (d : Decoder α) (first : Nat) : Prop where
  missing : ∀ r : Reader, r.remaining < first → d.apply r = (.error (.pastEnd first r.position), r)
  passes : ∀ {r r' : Reader} {result}, first ≤ r.remaining → d.apply r = (result, r') →
    ∃ bytes, first ≤ bytes.length ∧ r.Passes bytes r'

theorem Moves.exists_passes (h : d.Moves first) {r r' : Reader} {result : Except WireError α}
    (hrun : d.apply r = (result, r')) : ∃ bytes, r.Passes bytes r' := by
  by_cases hr : r.remaining < first
  · rw [h.missing r hr] at hrun
    cases hrun
    exact ⟨[], r.passes_nil⟩
  · obtain ⟨bytes, -, hpasses⟩ := h.passes (Nat.le_of_not_lt hr) hrun
    exact ⟨bytes, hpasses⟩

/-- Whatever else is known, the decoder does not go back. -/
theorem Moves.weaken (h : d.Moves first) : d.Moves 0 where
  missing _ hr := absurd hr (Nat.not_lt_zero _)
  passes _ hrun := by
    obtain ⟨bytes, hpasses⟩ := h.exists_passes hrun
    exact ⟨bytes, Nat.zero_le _, hpasses⟩

theorem moves_liftM (e : Except WireError α) : (liftM e : Decoder α).Moves 0 where
  missing _ hr := absurd hr (Nat.not_lt_zero _)
  passes {r} _ _ _ hrun := by
    rw [apply_liftM] at hrun
    cases hrun
    exact ⟨[], Nat.le_refl 0, r.passes_nil⟩

theorem moves_pure (a : α) : (pure a : Decoder α).Moves 0 := moves_liftM (.ok a)

theorem exists_apply_take {length : Nat} {r : Reader} (h : length ≤ r.remaining) :
    ∃ bs r', (take length).apply r = (.ok bs, r') :=
  ⟨_, _, (apply_take length r).trans (if_neg (Nat.not_lt.mpr h))⟩

theorem moves_take (length : Nat) : (take length).Moves length where
  missing r h := by rw [apply_take]; exact if_pos h
  passes h hrun := by
    obtain ⟨_, _, hok⟩ := exists_apply_take h
    rw [hok] at hrun
    cases hrun
    obtain ⟨_, ⟨hlength, rfl⟩, hpasses⟩ := takes_take length hok
    exact ⟨_, Nat.le_of_eq hlength.symm, hpasses⟩

/-- **What follows the first part** may be anything that does not go back. -/
theorem Moves.bind (hd : d.Moves first) (hf : ∀ a, (f a).Moves 0) : (d >>= f).Moves first where
  missing r h := by rw [apply_bind, hd.missing r h]
  passes {r} _ _ h hrun := by
    rw [apply_bind] at hrun
    rcases hfirst : d.apply r with ⟨e | a, r₁⟩ <;> rw [hfirst] at hrun
    · cases hrun
      exact hd.passes h hfirst
    · obtain ⟨x, hlength, hx⟩ := hd.passes h hfirst
      obtain ⟨y, hy⟩ := (hf a).exists_passes hrun
      exact ⟨x ++ y, by rw [List.length_append]; omega, hx.trans hy⟩

theorem Moves.map (hd : d.Moves first) (f : α → β) :
    (do return f (← d) : Decoder β).Moves first := hd.bind fun a => moves_pure (f a)

theorem moves_ite {p : Prop} [Decidable p] {d' : Decoder α} (hd : d.Moves first)
    (hd' : d'.Moves first) : (if p then d else d').Moves first := by
  split
  · exact hd
  · exact hd'

theorem moves_fixed (t : IntType) : (fixed t).Moves t.size := (moves_take t.size).map t.ofBytes

theorem moves_narrow (source target : IntType) :
    (do target.narrow (← fixed source) : Decoder target.Value).Moves source.size :=
  (moves_fixed source).bind fun v => moves_liftM (target.narrow v)

theorem moves_varInt (t : IntType) : (varInt t).Moves 1 :=
  (moves_fixed .u8).bind fun first =>
    moves_ite (moves_narrow .u16 t).weaken <| moves_ite (moves_narrow .u32 t).weaken <|
      moves_ite (moves_narrow .u64 t).weaken (moves_liftM (t.narrow first))

theorem moves_count : count.Moves 1 := (moves_varInt .u64).map fun v => v.val.toNat

end Decoder

/-! ## Where a failed read ends -/

/-- Why a read that began at `r` ends at `r'`: too few bytes lie ahead, or the value that was passed
last does not fit into a type of the size named. -/
def WireError.Explains : WireError → Reader → Reader → Prop
  | .pastEnd length place, _, r' => place = r'.position ∧ r'.remaining < length
  | .doesNotFit source value size, r, r' =>
    (∃ target : IntType, target.size = size ∧ ¬ target.Holds value) ∧
      ∃ lead, ∃ v : source.Value, v.val = value ∧ r.Passes (lead ++ source.toBytes v) r'
  | .tooMany _, _, _ => False
  | .noInputs, _, _ => False

namespace WireError.Explains

variable {e : WireError} {r r' r'' : Reader}

theorem kind (h : e.Explains r r') : e.failure.kind = .outOfRange := by
  cases e with
  | pastEnd length place => rfl
  | doesNotFit source value size => rfl
  | tooMany number => exact h.elim
  | noInputs => exact h.elim

theorem after {x : Bytes} (h : e.Explains r' r'') (hx : r.Passes x r') : e.Explains r r'' := by
  cases e with
  | doesNotFit source value size =>
    obtain ⟨htarget, lead, v, hv, hpasses⟩ := h
    exact ⟨htarget, x ++ lead, v, hv, by rw [List.append_assoc]; exact hx.trans hpasses⟩
  | _ => exact h

end WireError.Explains

namespace Decoder

variable {α β : Type} {d : Decoder α} {f : α → Decoder β} {first : Nat}

/-- Whenever the decoder fails, it ends where the error says. -/
def Explained (d : Decoder α) : Prop := ∀ ⦃r e r'⦄, d.apply r = (.error e, r') → e.Explains r r'

/-- A composition fails in its first part or behind it. -/
theorem apply_bind_eq_error {r r'' : Reader} {e : WireError} :
    (d >>= f).apply r = (.error e, r'') ↔
      d.apply r = (.error e, r'') ∨
        ∃ a r', d.apply r = (.ok a, r') ∧ (f a).apply r' = (.error e, r'') :=
  Stateful.apply_bind_eq_error

theorem explained_pure (a : α) : (pure a : Decoder α).Explained := fun _ _ _ h => by cases h

theorem explained_take (length : Nat) : (take length).Explained := by
  intro r e r' h
  rw [apply_take] at h
  split at h
  · next hlt =>
    cases h
    exact ⟨rfl, hlt⟩
  · cases h

theorem Explained.bind (hd : d.Explained) (hmoves : d.Moves first) (hf : ∀ a, (f a).Explained) :
    (d >>= f).Explained := by
  intro r e r'' h
  rcases apply_bind_eq_error.mp h with h | ⟨a, r', hfirst, h⟩
  · exact hd h
  · obtain ⟨x, hx⟩ := hmoves.exists_passes hfirst
    exact (hf a h).after hx

theorem Explained.map (hd : d.Explained) (hmoves : d.Moves first) (f : α → β) :
    (do return f (← d) : Decoder β).Explained := hd.bind hmoves fun a => explained_pure (f a)

theorem explained_ite {p : Prop} [Decidable p] {d' : Decoder α} (hd : d.Explained)
    (hd' : d'.Explained) : (if p then d else d').Explained := by
  split
  · exact hd
  · exact hd'

theorem explained_fixed (t : IntType) : (fixed t).Explained :=
  (explained_take t.size).map (moves_take t.size) t.ofBytes

/-- Narrowing fails behind the value. -/
theorem explains_of_apply_narrow {source target : IntType} {v : source.Value} {r r' r'' : Reader}
    {e : WireError} (hv : r.Passes (source.toBytes v) r')
    (h : (liftM (target.narrow v) : Decoder target.Value).apply r' = (.error e, r'')) :
    e.Explains r r'' := by
  rw [apply_liftM, IntType.narrow] at h
  split at h
  · cases h
  · next hfits =>
    cases h
    exact ⟨⟨target, rfl, hfits⟩, [], v, rfl, hv⟩

theorem explained_narrow (source target : IntType) :
    (do target.narrow (← fixed source) : Decoder target.Value).Explained := by
  intro r e r'' h
  rcases apply_bind_eq_error.mp h with h | ⟨v, r', hfixed, h⟩
  · exact explained_fixed source h
  · obtain ⟨_, rfl, hpasses⟩ := takes_fixed source hfixed
    exact explains_of_apply_narrow hpasses h

theorem explained_varInt (t : IntType) : (varInt t).Explained := by
  intro r e r'' h
  rcases apply_bind_eq_error.mp h with h | ⟨first, r', hfixed, h⟩
  · exact explained_fixed .u8 h
  · obtain ⟨_, rfl, hpasses⟩ := takes_fixed .u8 hfixed
    split at h
    · exact (explained_narrow .u16 t h).after hpasses
    split at h
    · exact (explained_narrow .u32 t h).after hpasses
    split at h
    · exact (explained_narrow .u64 t h).after hpasses
    · exact explains_of_apply_narrow hpasses h

theorem explained_count : count.Explained :=
  (explained_varInt .u64).map (moves_varInt .u64) fun v => v.val.toNat

end Decoder

/-! ## Fields -/

/-- The bytes are those of the field. Where a number was read, it may stand in any of its forms. -/
def Field.Stands : Field → Bytes → Prop
  | .varBytes value, bs => ∃ form : Form, form.Holds value.length ∧ bs = form.prefixed value
  | .varInt _ _ value, bs =>
    ∃ (form : Form) (n : Nat), form.Holds n ∧ value.val = n ∧ bs = form.encode n
  | field, bs => field.encode = .ok bs

namespace Shape

/-- The number of bytes that a read asks for before anything else. -/
def firstLength : Shape → Nat
  | .byte => 1
  | .bytes length => length
  | .varBytes => 1
  | .fixed t => t.size
  | .four _ => 4
  | .eight _ => 8
  | .varInt _ _ => 1

/-- Whether a read asks for nothing more than its first bytes and takes them as they are. -/
def inOnePiece : Shape → Bool
  | .byte | .bytes _ | .fixed _ => true
  | _ => false

open Decoder

theorem moves_decode (shape : Shape) : shape.decode.Moves shape.firstLength := by
  cases shape with
  | byte => exact ((moves_take 1).map _).map _
  | bytes length => exact (moves_take length).map _
  | varBytes => exact (moves_count.bind fun length => (moves_take length).weaken).map _
  | fixed t => exact (moves_fixed t).map _
  | four t => exact (moves_narrow .u32 t).map _
  | eight t => exact (moves_ite (moves_narrow .i64 t) (moves_narrow .u64 t)).map _
  | varInt t unsigned => exact (moves_varInt t).map _

theorem explained_decode (shape : Shape) : shape.decode.Explained := by
  cases shape with
  | byte => exact ((explained_take 1).map (moves_take 1) _).map ((moves_take 1).map _) _
  | bytes length => exact (explained_take length).map (moves_take length) _
  | varBytes =>
    have hmoves := moves_count.bind fun length => (moves_take length).weaken
    exact (explained_count.bind moves_count explained_take).map hmoves _
  | fixed t => exact (explained_fixed t).map (moves_fixed t) _
  | four t => exact (explained_narrow .u32 t).map (moves_narrow .u32 t) _
  | eight t =>
    exact (explained_ite (explained_narrow .i64 t) (explained_narrow .u64 t)).map
      (moves_ite (moves_narrow .i64 t) (moves_narrow .u64 t)) _
  | varInt t unsigned => exact (explained_varInt t).map (moves_varInt t) _

theorem takes_decode (shape : Shape) :
    shape.decode.Takes fun field bytes => field.shape = shape ∧ field.Stands bytes := by
  cases shape with
  | byte =>
    refine takes_byte.map _ ?_
    rintro b _ rfl
    exact ⟨rfl, rfl⟩
  | bytes length =>
    refine (takes_take length).map _ ?_
    rintro bs _ ⟨rfl, rfl⟩
    exact ⟨rfl, rfl⟩
  | varBytes => exact takes_varBytes.map _ fun _ _ h => ⟨rfl, h⟩
  | fixed t =>
    refine (takes_fixed t).map _ ?_
    rintro v _ rfl
    exact ⟨rfl, rfl⟩
  | four t =>
    refine (takes_narrow_value .u32 t).map _ ?_
    rintro ⟨v, hv⟩ _ ⟨v', rfl, rfl⟩
    exact ⟨rfl, Field.encode_four_eq_ok_iff.mpr ⟨v'.property, rfl⟩⟩
  | eight t =>
    refine (takes_eight t).map _ ?_
    rintro v _ rfl
    exact ⟨rfl, rfl⟩
  | varInt t unsigned => exact (takes_varInt t).map _ fun _ _ h => ⟨rfl, h⟩

/-- A read in one piece fails only if its bytes are missing. -/
theorem remaining_lt_of_inOnePiece {shape : Shape} (hpiece : shape.inOnePiece = true)
    {r r' : Reader} {e : WireError} (h : shape.decode.apply r = (.error e, r')) :
    r.remaining < shape.firstLength := by
  refine Nat.lt_of_not_ge fun hle => ?_
  obtain ⟨bs, r'', htake⟩ := exists_apply_take hle
  cases shape with
  | byte =>
    have hbyte : Decoder.byte.apply r = (.ok (bs.headD 0), r'') :=
      apply_bind_eq_ok.mpr ⟨bs, r'', htake, rfl⟩
    cases h.symm.trans (apply_bind_eq_ok.mpr ⟨_, r'', hbyte, rfl⟩)
  | bytes length => cases h.symm.trans (apply_bind_eq_ok.mpr ⟨bs, r'', htake, rfl⟩)
  | fixed t =>
    have hfixed : (Decoder.fixed t).apply r = (.ok (t.ofBytes bs), r'') :=
      apply_bind_eq_ok.mpr ⟨bs, r'', htake, rfl⟩
    cases h.symm.trans (apply_bind_eq_ok.mpr ⟨_, r'', hfixed, rfl⟩)
  | varBytes | four _ | eight _ | varInt _ _ => cases hpiece

theorem inOnePiece_of_firstLength_eq_zero {shape : Shape} (h : shape.firstLength = 0) :
    shape.inOnePiece = true := by
  cases shape <;> first | rfl | cases h

/-- **A failed read has not moved** just when its first piece is missing. -/
theorem position_eq_iff {shape : Shape} {r r' : Reader} {e : WireError}
    (h : shape.decode.apply r = (.error e, r')) :
    r'.position = r.position ↔ r.remaining < shape.firstLength := by
  constructor
  · intro hsame
    refine Nat.lt_of_not_ge fun hle => ?_
    obtain ⟨bytes, hlength, hpasses⟩ := shape.moves_decode.passes hle h
    have hposition := hpasses.position
    -- Nothing was passed, so nothing was asked for, and such a read does not fail.
    have hnone : shape.firstLength = 0 := by omega
    have hlt := remaining_lt_of_inOnePiece (inOnePiece_of_firstLength_eq_zero hnone) h
    omega
  · intro hlt
    rw [shape.moves_decode.missing r hlt] at h
    cases h
    rfl

end Shape

/-! ## Reads one after the other -/

namespace Reader

/-- A place in `data`. -/
def In (r : Reader) (data : Bytes) : Prop :=
  ∃ before, data = before ++ r.rest ∧ r.position = before.length

theorem in_ofBytes (data : Bytes) : (ofBytes data).In data := ⟨[], rfl, rfl⟩

theorem In.rest_eq {r : Reader} {data : Bytes} (h : r.In data) : r.rest = data.drop r.position := by
  obtain ⟨before, rfl, hposition⟩ := h
  rw [hposition, List.drop_left' rfl]

theorem In.position_add_remaining {r : Reader} {data : Bytes} (h : r.In data) :
    r.position + r.remaining = data.length := by
  obtain ⟨before, rfl, hposition⟩ := h
  rw [hposition, List.length_append]
  rfl

theorem In.passes {r r' : Reader} {data bytes : Bytes} (h : r.In data) (hpasses : r.Passes bytes r') :
    r'.In data := by
  obtain ⟨before, rfl, hposition⟩ := h
  refine ⟨before ++ bytes, ?_, ?_⟩
  · rw [hpasses.rest, List.append_assoc]
  · rw [hpasses.position, hposition, List.length_append]

/-- Where reads of these shapes leave the reader, one after the other; one that fails is followed by
the next all the same. -/
def after (r : Reader) (shapes : List Shape) : Reader :=
  shapes.foldl (fun r shape => (shape.decode.apply r).2) r

theorem In.after {r : Reader} {data : Bytes} (h : r.In data) (shapes : List Shape) :
    (r.after shapes).In data := by
  induction shapes generalizing r with
  | nil => exact h
  | cons shape shapes ih =>
    obtain ⟨bytes, hpasses⟩ := shape.moves_decode.exists_passes (Prod.eta (shape.decode.apply r)).symm
    exact ih (h.passes hpasses)

end Reader

namespace Shape

/-- **Where a read leaves the reader**, from wherever earlier reads have led. If it succeeds, it has
moved over the bytes of the field, which come next in the data. If it fails, it is left where the
error says, and only if its first piece is missing that is where it was. -/
theorem decode_after (data : Bytes) (earlier : List Shape) (shape : Shape) :
    let r := (Reader.ofBytes data).after earlier
    r.rest = data.drop r.position ∧
    (∀ field r', shape.decode.apply r = (.ok field, r') →
      field.shape = shape ∧ ∃ bytes, field.Stands bytes ∧ bytes <+: data.drop r.position ∧
        r'.position = r.position + bytes.length ∧ r'.position ≤ data.length) ∧
    ∀ e r', shape.decode.apply r = (.error e, r') →
      e.failure.kind = .outOfRange ∧ e.Explains r r' ∧
        r.position ≤ r'.position ∧ r'.position ≤ data.length ∧
        (r'.position = r.position ↔ data.length < r.position + shape.firstLength) ∧
        (shape.inOnePiece = true → r'.position = r.position) := by
  intro r
  have hr : r.In data := (Reader.in_ofBytes data).after earlier
  have hlength := hr.position_add_remaining
  refine ⟨hr.rest_eq, fun field r' h => ?_, fun e r' h => ?_⟩
  · obtain ⟨bytes, ⟨hshape, hstands⟩, hpasses⟩ := shape.takes_decode h
    have hlength' := (hr.passes hpasses).position_add_remaining
    refine ⟨hshape, bytes, hstands, ⟨r'.rest, ?_⟩, hpasses.position, by omega⟩
    rw [← hr.rest_eq, hpasses.rest]
  · obtain ⟨bytes, hpasses⟩ := shape.moves_decode.exists_passes h
    have hlength' := (hr.passes hpasses).position_add_remaining
    have hposition := hpasses.position
    have hexplains := shape.explained_decode h
    have hself : r'.position = r.position ↔ data.length < r.position + shape.firstLength := by
      rw [position_eq_iff h]
      omega
    exact ⟨hexplains.kind, hexplains, by omega, by omega, hself, fun hpiece =>
      (position_eq_iff h).mpr (remaining_lt_of_inOnePiece hpiece h)⟩

/-- A number whose mark is there but not what it announces: the read fails, and the mark is passed
all the same. -/
theorem not_forall_failed_read_unmoved :
    ¬ ∀ (data : Bytes) (earlier : List Shape) (shape : Shape) (e : WireError) (r' : Reader),
      shape.decode.apply ((Reader.ofBytes data).after earlier) = (.error e, r') →
        r'.position = ((Reader.ofBytes data).after earlier).position := by
  intro h
  have hmark := h [0xFE, 1, 0] [] (.varInt .u64 rfl) (.pastEnd 4 1) ⟨1, [1, 0]⟩ rfl
  cases hmark

end Shape

end SpendScript
