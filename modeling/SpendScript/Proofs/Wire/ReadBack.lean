import SpendScript.Proofs.Wire.Takes

/-!
# Fields written and read back

A field is appended piece by piece and begins where the writer stood. Read in its shape it is found
again, and the reader stands where the writer stood. So a list of fields is read back field by field,
but for the integers that were refused because they do not fit, which leave no trace.

* `Encoder.Appends`, `Encoder.appends_varInt`, **`Field.appends_encoder`**: the pieces of a field;
* `Field.fits`, `Field.apply_encoder_of_not_fits`: the fields that are refused;
* `Writer.write_eq_encoder`: a field written at once;
* **`Field.reads_decode`**: a field is read in its shape;
* `Writer.writeEach`, `Shape.decodeEach`: lists of fields;
* **`Writer.decodeEach_writeEach`**: they are read back, and numbers have their shortest form.
-/

namespace SpendScript

open CompactSize (Form)

/-! ## Piece by piece -/

namespace Encoder

theorem apply_bind_of_ok {α β : Type} {e : Encoder α} {f : α → Encoder β} {a : α} {w w' : Writer}
    (h : e.apply w = (.ok a, w')) : (e >>= f).apply w = (f a).apply w' :=
  Stateful.apply_bind_of_ok h

/-- The encoder appends these bytes to what was written, whatever that is, and returns where they
begin. -/
def Appends (e : Encoder Nat) (bytes : Bytes) : Prop :=
  ∀ w, e.apply w = (.ok w.buffer.length, ⟨w.buffer ++ bytes⟩)

theorem appends_append (bs : Bytes) : (append bs).Appends bs := fun _ => rfl

/-- What has two pieces begins where the first of them does. -/
theorem Appends.followed {e : Encoder Nat} {x : Bytes} (h : e.Appends x) (y : Bytes) :
    (do let offset ← e; let _ ← append y; return offset : Encoder Nat).Appends (x ++ y) := by
  intro w
  rw [apply_bind_of_ok (h w), apply_bind_of_ok (appends_append y _), List.append_assoc]
  rfl

theorem appends_fixed_ofBits {t : IntType} {n : Nat} (h : n < t.modulus) :
    (fixed t (t.ofBits n)).Appends (Bytes.ofNatLE t.size n) := by
  rw [fixed, IntType.toBytes_ofBits h]
  exact appends_append _

theorem appends_marked (mark : UInt8) {t : IntType} {n : Nat} (h : n < t.modulus) :
    (marked mark t (t.ofBits n)).Appends (mark :: Bytes.ofNatLE t.size n) := by
  rw [marked, fixed, IntType.toBytes_ofBits h]
  exact (appends_append [mark]).followed _

/-- **A CompactSize number** is appended in its shortest form. -/
theorem appends_varInt (t : IntType) (v : t.Value) :
    (varInt t v).Appends (CompactSize.encode v.val.toNat) := by
  have hlt : v.val.toNat < 2 ^ 64 := by
    have hmax := v.property.2
    have hmodulus := t.modulus_le
    unfold IntType.maxValue at hmax
    split at hmax <;> omega
  unfold varInt CompactSize.encode
  dsimp only
  split
  · exact appends_append _
  split
  · exact appends_marked 0xFD (t := .u16) (Nat.lt_succ_of_le ‹_›)
  split
  · exact appends_marked 0xFE (t := .u32) (Nat.lt_succ_of_le ‹_›)
  · exact appends_marked 0xFF (t := .u64) hlt

theorem appends_varBytes {bs : Bytes} (h : bs.length < 2 ^ 64) :
    (varBytes bs).Appends (CompactSize.prefixed bs) := by
  have hlength : (IntType.u64.ofBits bs.length).val.toNat = bs.length := Nat.mod_eq_of_lt h
  have hcount := appends_varInt .u64 (IntType.u64.ofBits bs.length)
  rw [hlength] at hcount
  exact hcount.followed bs

end Encoder

open Encoder Decoder

/-! ## Fields -/

namespace Field

/-- Bytes whose number is written are no more than a size can count; in memory there never are. -/
def InMemory : Field → Prop
  | .varBytes value => value.length < 2 ^ 64
  | _ => True

/-- Whether a field can be written: an integer in four bytes must fit into them. -/
def fits : Field → Bool
  | .four _ value => IntType.u32.Holds value.val
  | _ => true

theorem exists_encode_of_fits {field : Field} (h : field.fits = true) :
    ∃ bytes, field.encode = .ok bytes := by
  cases field with
  | four t value =>
    have hfits : IntType.u32.Holds value.val := of_decide_eq_true h
    exact ⟨_, by rw [encode, IntType.narrow, dif_pos hfits]; rfl⟩
  | _ => exact ⟨_, rfl⟩

theorem encode_four_eq_ok_iff {t : IntType} {value : t.Value} {bytes : Bytes} :
    (four t value).encode = .ok bytes ↔
      ∃ h : IntType.u32.Holds value.val, bytes = IntType.u32.toBytes ⟨value.val, h⟩ := by
  rw [encode, IntType.narrow]
  split
  · next h =>
    constructor
    · intro hbytes
      cases hbytes
      exact ⟨h, rfl⟩
    · rintro ⟨-, rfl⟩
      rfl
  · next h =>
    constructor
    · intro hbytes
      cases hbytes
    · rintro ⟨hfits, -⟩
      exact absurd hfits h

/-- **A field that is written** is written as its bytes, from where the writer stands. -/
theorem appends_encoder {field : Field} {bytes : Bytes} (hm : field.InMemory)
    (h : field.encode = .ok bytes) : field.encoder.Appends bytes := by
  cases field with
  | byte value => cases h; exact appends_append [value]
  | bytes value => cases h; exact appends_append bytes
  | varBytes value => cases h; exact appends_varBytes hm
  | fixed t value => cases h; exact appends_append (t.toBytes value)
  | four t value =>
    rw [encode] at h
    rw [encoder, Encoder.four]
    cases hnarrow : IntType.u32.narrow value with
    | error e => rw [hnarrow] at h; cases h
    | ok narrow => rw [hnarrow] at h; cases h; exact appends_append _
  | eight t value => cases h; exact appends_fixed_ofBits (IntType.bits_lt .u64 value.val)
  | varInt t unsigned value => cases h; exact appends_varInt t value

/-- **A field that does not fit is refused**, and what was written before stays as it is. -/
theorem apply_encoder_of_not_fits {field : Field} (h : field.fits = false) (w : Writer) :
    ∃ e, field.encode = .error e ∧ field.encoder.apply w = (.error e, w) ∧
      e.failure.kind = .outOfRange := by
  cases field with
  | four t value =>
    have hfits : ¬ IntType.u32.Holds value.val := of_decide_eq_false h
    have hnarrow : IntType.u32.narrow value = .error (.doesNotFit t value.val 4) := dif_neg hfits
    exact ⟨_, by rw [encode, hnarrow]; rfl, by rw [encoder, Encoder.four, hnarrow]; rfl, rfl⟩
  | _ => cases h

/-- **A field is read in its shape** from the bytes that it is written as. -/
theorem reads_decode {field : Field} {bytes : Bytes} (hm : field.InMemory)
    (h : field.encode = .ok bytes) : field.shape.decode.Reads bytes field := by
  cases field with
  | byte value =>
    cases h
    have htake : (take 1).Reads [value] [value] := reads_take rfl
    have hbyte : Decoder.byte.Reads [value] value := htake.bind_nil (reads_pure value)
    exact hbyte.bind_nil (reads_pure _)
  | bytes value => cases h; exact (reads_take rfl).bind_nil (reads_pure _)
  | varBytes value =>
    cases h
    rw [CompactSize.prefixed_eq]
    exact (reads_varBytes (Form.holds_shortest hm)).bind_nil (reads_pure _)
  | fixed t value => cases h; exact (reads_fixed value).bind_nil (reads_pure _)
  | four t value =>
    obtain ⟨hfits, rfl⟩ := encode_four_eq_ok_iff.mp h
    have hfour : (Decoder.four t).Reads (IntType.u32.toBytes ⟨value.val, hfits⟩) value :=
      reads_narrow_value ⟨value.val, hfits⟩ value.property
    exact hfour.bind_nil (reads_pure _)
  | eight t value => cases h; exact (reads_eight value).bind_nil (reads_pure _)
  | varInt t unsigned value =>
    cases h
    obtain ⟨v, hv⟩ := value
    obtain ⟨n, -, rfl, -⟩ := IntType.exists_natCast unsigned ⟨v, hv⟩
    exact (reads_varInt hv).bind_nil (reads_pure _)

end Field

/-! ## Lists of fields -/

/-- Writes fields one after the other and goes on behind those that are refused: what each write
returned, and the writer in the end. -/
def Writer.writeEach (w : Writer) : List Field → List (Except WireError Nat) × Writer
  | [] => ([], w)
  | field :: fields =>
    let (result, w') := field.encoder.apply w
    let (results, last) := w'.writeEach fields
    (result :: results, last)

/-- Reads fields of the given shapes one after the other, each with the position before it. -/
def Shape.decodeEach : List Shape → Decoder (List (Nat × Field))
  | [] => return []
  | shape :: shapes => do
    let position ← Decoder.position
    let field ← shape.decode
    return (position, field) :: (← decodeEach shapes)

theorem Shape.apply_decodeEach_cons {field : Field} {bytes : Bytes}
    (h : field.shape.decode.Reads bytes field) {shapes : List Shape} {position : Nat} {rest : Bytes}
    {found : List (Nat × Field)} {r : Reader}
    (hrest : (decodeEach shapes).apply ⟨position + bytes.length, rest⟩ = (.ok found, r)) :
    (decodeEach (field.shape :: shapes)).apply ⟨position, bytes ++ rest⟩ =
      (.ok ((position, field) :: found), r) := by
  refine apply_bind_eq_ok.mpr ⟨position, ⟨position, bytes ++ rest⟩, rfl, ?_⟩
  refine apply_bind_eq_ok.mpr ⟨field, _, h position rest, ?_⟩
  exact apply_bind_eq_ok.mpr ⟨found, r, hrest, rfl⟩

namespace Writer

theorem write_eq_encoder {field : Field} (hm : field.InMemory) (w : Writer) :
    w.write field =
      match field.encoder.apply w with
      | (.ok offset, w') => .ok (offset, w')
      | (.error e, _) => .error e := by
  rw [write]
  cases hfits : field.fits with
  | true =>
    obtain ⟨bytes, hbytes⟩ := Field.exists_encode_of_fits hfits
    rw [hbytes, Field.appends_encoder hm hbytes w]
    rfl
  | false =>
    obtain ⟨e, herror, happly, -⟩ := Field.apply_encoder_of_not_fits hfits w
    rw [herror, happly]
    rfl

/-- What is written behind `w` is read from where `w` stood, whatever comes after it. -/
theorem exists_tail_writeEach {fields : List Field} (h : ∀ field ∈ fields, field.InMemory)
    (w : Writer) :
    (w.writeEach fields).1.map Except.isOk = fields.map Field.fits ∧
    ∃ tail, (w.writeEach fields).2.buffer = w.buffer ++ tail ∧
      ∀ rest, (Shape.decodeEach ((fields.filter Field.fits).map Field.shape)).apply
          ⟨w.buffer.length, tail ++ rest⟩ =
        (.ok (((w.writeEach fields).1.filterMap Except.toOption).zip (fields.filter Field.fits)),
          ⟨w.buffer.length + tail.length, rest⟩) := by
  induction fields generalizing w with
  | nil => exact ⟨rfl, [], (List.append_nil _).symm, fun _ => rfl⟩
  | cons field fields ih =>
    obtain ⟨hm, hfields⟩ := List.forall_mem_cons.mp h
    cases hfits : field.fits with
    | true =>
      obtain ⟨bytes, hbytes⟩ := Field.exists_encode_of_fits hfits
      obtain ⟨hok, tail, hbuffer, hread⟩ := ih hfields ⟨w.buffer ++ bytes⟩
      rw [writeEach, Field.appends_encoder hm hbytes w]
      refine ⟨by rw [List.map_cons, List.map_cons, hok, hfits]; rfl, bytes ++ tail, ?_, fun rest => ?_⟩
      · rw [← List.append_assoc]
        exact hbuffer
      · have hbehind := hread rest
        rw [List.length_append] at hbehind
        rw [List.filter_cons_of_pos hfits, List.append_assoc, List.length_append, ← Nat.add_assoc]
        exact Shape.apply_decodeEach_cons (Field.reads_decode hm hbytes) hbehind
    | false =>
      obtain ⟨e, -, happly, -⟩ := Field.apply_encoder_of_not_fits hfits w
      obtain ⟨hok, htail⟩ := ih hfields w
      rw [writeEach, happly, List.filter_cons_of_neg (Bool.eq_false_iff.mp hfits)]
      exact ⟨by rw [List.map_cons, List.map_cons, hok, hfits]; rfl, htail⟩

/-- **The shortest form** of a number is no longer than any bytes that it is read from, and no other
bytes of its length are read as the number. -/
theorem shortest_of_apply_varInt {t : IntType} {v : t.Value} {bs : Bytes} {r : Reader}
    (h : (Decoder.varInt t).apply (Reader.ofBytes bs) = (.ok v, r)) :
    (CompactSize.encode v.val.toNat).length ≤ bs.length ∧
      (bs.length = (CompactSize.encode v.val.toNat).length →
        bs = CompactSize.encode v.val.toNat) := by
  obtain ⟨_, ⟨form, n, hform, hv, rfl⟩, hrest, -⟩ := takes_varInt t h
  replace hrest : bs = form.encode n ++ r.rest := hrest
  obtain rfl : v.val.toNat = n := by omega
  have hlength : bs.length = form.width + r.rest.length := by
    rw [hrest, List.length_append, Form.length_encode]
  have hwidth := Form.width_eq hform
  rw [CompactSize.length_encode_eq]
  refine ⟨by omega, fun hsame => ?_⟩
  have hshortest := (Form.excess_eq_zero_iff hform).mp (by omega)
  have hnone : r.rest = [] := List.eq_nil_of_length_eq_zero (by omega)
  rw [hrest, hnone, List.append_nil, hshortest, CompactSize.encode_eq]

/-- **What is written is read back.** Of a list of fields those are written that fit, and the others
leave what was written as it is. Reading the same fields one after the other finds their values, each
at the offset that writing it returned, and nothing behind them. A number is written in the shortest
bytes that it is read from. -/
theorem decodeEach_writeEach {fields : List Field} (h : ∀ field ∈ fields, field.InMemory) :
    (let session := empty.writeEach fields
     let offsets := session.1.filterMap Except.toOption
     let kept := fields.filter Field.fits
     session.1.map Except.isOk = fields.map Field.fits ∧
      (Shape.decodeEach (kept.map Field.shape)).apply (Reader.ofBytes session.2.buffer) =
        (.ok (offsets.zip kept), ⟨session.2.buffer.length, []⟩)) ∧
    (∀ (t : IntType) (v : t.Value) (w : Writer), ¬ IntType.u32.Holds v.val →
      ∃ e, (Field.four t v).encoder.apply w = (.error e, w) ∧ e.failure.kind = .outOfRange) ∧
    ∀ (t : IntType) (unsigned : t.signed = false) (v : t.Value), ∃ bytes,
      (Field.varInt t unsigned v).encoder.apply empty = (.ok 0, ⟨bytes⟩) ∧
      (Decoder.varInt t).apply (Reader.ofBytes bytes) = (.ok v, ⟨bytes.length, []⟩) ∧
      ∀ bs r, (Decoder.varInt t).apply (Reader.ofBytes bs) = (.ok v, r) →
        bytes.length ≤ bs.length ∧ (bs.length = bytes.length → bs = bytes) := by
  obtain ⟨hok, tail, hbuffer, hread⟩ := exists_tail_writeEach h empty
  refine ⟨⟨hok, ?_⟩, fun t v w hfits => ?_, fun t unsigned v => ?_⟩
  · have hall := hread []
    replace hbuffer : (empty.writeEach fields).2.buffer = tail := hbuffer
    rw [List.append_nil, ← hbuffer, show empty.buffer.length = 0 from rfl, Nat.zero_add] at hall
    exact hall
  · have hrefused : (Field.four t v).fits = false := decide_eq_false hfits
    obtain ⟨e, -, happly, hkind⟩ := Field.apply_encoder_of_not_fits hrefused w
    exact ⟨e, happly, hkind⟩
  · refine ⟨CompactSize.encode v.val.toNat, appends_varInt t v empty, ?_, fun bs r hbs =>
      shortest_of_apply_varInt hbs⟩
    obtain ⟨v, hv⟩ := v
    obtain ⟨n, -, rfl, -⟩ := IntType.exists_natCast unsigned ⟨v, hv⟩
    have hread := reads_varInt hv 0 []
    rwa [List.append_nil, Nat.zero_add] at hread

/-- Fields of five kinds, one of them refused: `0x100000000` takes more than four bytes. -/
theorem decodeEach_writeEach_one_refused :
    let fields : List Field :=
      [.byte 7, .four .i64 ⟨0x100000000, by decide⟩, .varBytes [1, 2, 3],
        .varInt .u8 rfl ⟨0xFD, by decide⟩, .eight .i8 ⟨-2, by decide⟩, .four .i16 ⟨5, by decide⟩]
    (∀ field ∈ fields, field.InMemory) ∧
      (Shape.decodeEach [.byte, .varBytes, .varInt .u8 rfl, .eight .i8, .four .i16]).apply
          (Reader.ofBytes [7, 3, 1, 2, 3, 0xFD, 0xFD, 0, 0xFE, 0xFF, 0xFF, 0xFF, 0xFF, 0xFF, 0xFF, 0xFF,
            5, 0, 0, 0]) =
        (.ok [(0, .byte 7), (1, .varBytes [1, 2, 3]), (5, .varInt .u8 rfl ⟨0xFD, by decide⟩),
          (8, .eight .i8 ⟨-2, by decide⟩), (16, .four .i16 ⟨5, by decide⟩)], ⟨20, []⟩) := by
  intro fields
  have hm : ∀ field ∈ fields, field.InMemory := by simp [fields, Field.InMemory]
  exact ⟨hm, (decodeEach_writeEach hm).1.2⟩

end Writer

end SpendScript
