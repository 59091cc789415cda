/-!
# Byte sequences

Bytes are lists, so that readers are functions on the front of a list and every law is an
induction on it. Numbers become bytes at a fixed width, in either order.

* `ofNatLE`, `toNatLE`: least significant byte first; `ofNatBE`, `toNatBE`: most significant first;
* `compare`: the order by the first byte that differs;
* `ofArray`: the bytes of a buffer.
-/

namespace SpendScript

abbrev Bytes := List UInt8

namespace Bytes

/-- The `width` bytes of `n`, least significant first; higher bits are dropped. -/
def ofNatLE : Nat → Nat → Bytes
  | 0, _ => []
  | width + 1, n => UInt8.ofNat n :: ofNatLE width (n / 256)

/-- The number whose bytes, least significant first, are these. -/
def toNatLE : Bytes → Nat
  | [] => 0
  | b :: bs => b.toNat + 256 * toNatLE bs

/-- The `width` bytes of `n`, most significant first; higher bits are dropped. -/
def ofNatBE (width n : Nat) : Bytes := (ofNatLE width n).reverse

/-- The number whose bytes, most significant first, are these. -/
def toNatBE (bs : Bytes) : Nat := toNatLE bs.reverse

/-- Bytewise order from the first byte on; a proper prefix comes before its extensions. -/
def compare (a b : Bytes) : Ordering := List.compareLex Ord.compare a b

/-- The bytes of a buffer. -/
def ofArray (buffer : ByteArray) : Bytes := buffer.data.toList

/-! ## Small laws -/

@[simp] theorem ofNatLE_zero (n : Nat) : ofNatLE 0 n = [] := rfl

@[simp] theorem ofNatLE_succ (width n : Nat) :
    ofNatLE (width + 1) n = UInt8.ofNat n :: ofNatLE width (n / 256) := rfl

@[simp] theorem toNatLE_nil : toNatLE [] = 0 := rfl

@[simp] theorem toNatLE_cons (b : UInt8) (bs : Bytes) :
    toNatLE (b :: bs) = b.toNat + 256 * toNatLE bs := rfl

@[simp] theorem length_ofNatLE (width n : Nat) : (ofNatLE width n).length = width := by
  induction width generalizing n with
  | zero => rfl
  | succ width ih => simp [ih]

@[simp] theorem length_ofNatBE (width n : Nat) : (ofNatBE width n).length = width := by
  simp [ofNatBE]

@[simp] theorem ofArray_toByteArray (bs : Bytes) : ofArray bs.toByteArray = bs := by
  rw [ofArray, List.data_toByteArray]

@[simp] theorem toByteArray_ofArray (buffer : ByteArray) :
    (ofArray buffer).toByteArray = buffer := by
  apply ByteArray.ext
  rw [List.data_toByteArray, ofArray, Array.toArray_toList]

@[simp] theorem length_ofArray (buffer : ByteArray) : (ofArray buffer).length = buffer.size := by
  rw [ofArray, Array.length_toList, ByteArray.size_data]

theorem ofArray_append (a b : ByteArray) : ofArray (a ++ b) = ofArray a ++ ofArray b := by
  rw [ofArray, ByteArray.data_append, Array.toList_append]
  rfl

theorem ofArray_extract (buffer : ByteArray) (start stop : Nat) :
    ofArray (buffer.extract start stop) = (ofArray buffer).extract start stop := by
  rw [ofArray, ByteArray.data_extract, Array.toList_extract]
  rfl

end Bytes

end SpendScript
