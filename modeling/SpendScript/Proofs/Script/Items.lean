import Mathlib.Algebra.Group.Nat.Defs
import SpendScript.Script.Action

/-!
# Stacks as lists of items

Every list of items makes a stack, and as long as the ints that it is kept by are exact the stack is
one for the list: a look finds the item that the list has there, and what is removed is removed from
the list. The ints are exact if the items below the topmost one, the topmost itself and the number
of items are all within 31 bits.

* `Stack.ofItems`, `spansOf`: the stack of a list of items; its spans and its buffer;
* `Placed`, `Fits`: lists that a stack can be kept for;
* `slice_ofItems`, `top_ofItems_cons`, **`peek_ofItems`**: looking at items;
* `exists_item_of_peek`: looking at items that are too many to be counted;
* `drop_ofItems`, **`trim_dropped`**: removing items;
* `Stack.LaidFrom`, `Stack.Holds`, **`holds_iff`**: how a stack holds a list of items.
-/

namespace SpendScript

open Bytes

namespace Stack

/-- The stack with the given items, topmost first. -/
def ofItems : List Bytes → Stack
  | [] => empty
  | item :: below => (ofItems below).push item

/-- The spans of items that lie back to back, topmost first. -/
def spansOf : List Bytes → List Span
  | [] => []
  | item :: below => ⟨.ofNat below.flatten.length, .ofNat item.length⟩ :: spansOf below

/-- The places of items, topmost first, are exact: where each begins and how long it is. The topmost
may end anywhere. -/
def Placed : List Bytes → Prop
  | [] => True
  | item :: below => below.flatten.length < 2 ^ 31 ∧ item.length < 2 ^ 31

/-- The places of items are exact, and so is their number. -/
structure Fits (items : List Bytes) : Prop where
  placed : Placed items
  count : items.length < 2 ^ 31

section Fitting

variable {item : Bytes} {above below items : List Bytes}

theorem placed_nil : Placed [] := trivial

theorem placed_of_length_flatten (h : items.flatten.length < 2 ^ 31) : Placed items := by
  cases items with
  | nil => trivial
  | cons item below =>
    rw [List.flatten_cons, List.length_append] at h
    exact ⟨by omega, by omega⟩

theorem Placed.tail (h : Placed (item :: below)) : Placed below := placed_of_length_flatten h.1

/-- What lies behind the topmost item has exact places, and an exact end. -/
theorem Placed.of_append (h : Placed (above ++ below)) : Placed below := by
  induction above with
  | nil => exact h
  | cons item above ih => exact ih h.tail

theorem Placed.drop (h : Placed items) (count : Nat) : Placed (items.drop count) := by
  rw [← List.take_append_drop count items] at h
  exact h.of_append

theorem length_flatten_drop_le (items : List Bytes) (count : Nat) :
    (items.drop count).flatten.length ≤ items.flatten.length := by
  have hparts := congrArg (fun l => l.flatten.length) (List.take_append_drop count items)
  simp only [List.flatten_append, List.length_append] at hparts
  omega

/-- Where an item is gone, the one below it ends at an exact place. -/
theorem Placed.length_flatten_drop_lt (h : Placed items) {count : Nat} (hcount : 0 < count) :
    (items.drop count).flatten.length < 2 ^ 31 := by
  obtain ⟨count, rfl⟩ := Nat.exists_eq_succ_of_ne_zero (Nat.ne_of_gt hcount)
  cases items with
  | nil => exact Nat.pow_pos (by decide)
  | cons item below => exact Nat.lt_of_le_of_lt (length_flatten_drop_le below count) h.1

theorem fits_nil : Fits [] := ⟨placed_nil, by decide⟩

theorem Fits.tail (h : Fits (item :: below)) : Fits below :=
  ⟨h.placed.tail, Nat.lt_of_succ_lt h.count⟩

theorem Fits.of_append (h : Fits (above ++ below)) : Fits below := by
  have hcount := h.count
  rw [List.length_append] at hcount
  exact ⟨h.placed.of_append, by omega⟩

theorem Fits.drop (h : Fits items) (count : Nat) : Fits (items.drop count) := by
  rw [← List.take_append_drop count items] at h
  exact h.of_append

/-- The items above others fit alone. -/
theorem Fits.upper (h : Fits (items ++ below)) : Fits items := by
  have hcount := h.count
  rw [List.length_append] at hcount
  refine ⟨?_, by omega⟩
  cases items with
  | nil => exact placed_nil
  | cons item items =>
    have hplaced : (items ++ below).flatten.length < 2 ^ 31 ∧ item.length < 2 ^ 31 := h.placed
    rw [List.flatten_append, List.length_append] at hplaced
    exact ⟨by omega, hplaced.2⟩

/-- Another item in the place of the topmost one. -/
theorem Fits.replace (h : Fits (item :: below)) {other : Bytes} (hother : other.length < 2 ^ 31) :
    Fits (other :: below) :=
  ⟨⟨h.placed.1, hother⟩, h.count⟩

end Fitting

/-! ## Spans and buffer -/

variable (items : List Bytes)

theorem length_flatten_reverse : items.reverse.flatten.length = items.flatten.length := by
  rw [List.length_flatten, List.length_flatten, List.map_reverse, List.sum_reverse]

theorem toList_spans_ofItems : (ofItems items).spans.toList = (spansOf items).reverse ∧
    ofArray (ofItems items).buffer = items.reverse.flatten := by
  induction items with
  | nil => exact ⟨rfl, rfl⟩
  | cons item below ih =>
    have hsize : (ofItems below).buffer.size = below.flatten.length := by
      rw [← length_ofArray, ih.2, length_flatten_reverse]
    constructor
    · change ((ofItems below).spans.push
        ⟨.ofNat (ofItems below).buffer.size, .ofNat item.toByteArray.size⟩).toList = _
      rw [Array.toList_push, ih.1, hsize, List.size_toByteArray, spansOf, List.reverse_cons]
    · change ofArray ((ofItems below).buffer ++ item.toByteArray) = _
      rw [ofArray_append, ih.2, ofArray_toByteArray, List.reverse_cons, List.flatten_append,
        List.flatten_singleton]

theorem ofArray_buffer_ofItems : ofArray (ofItems items).buffer = items.reverse.flatten :=
  (toList_spans_ofItems items).2

@[simp] theorem size_buffer_ofItems : (ofItems items).buffer.size = items.flatten.length := by
  rw [← length_ofArray, ofArray_buffer_ofItems, length_flatten_reverse]

@[simp] theorem length_spansOf : (spansOf items).length = items.length := by
  induction items with
  | nil => rfl
  | cons item below ih => rw [spansOf, List.length_cons, ih, List.length_cons]

@[simp] theorem size_spans_ofItems : (ofItems items).spans.size = items.length := by
  rw [← Array.length_toList, (toList_spans_ofItems items).1, List.length_reverse, length_spansOf]

theorem spansOf_drop (count : Nat) : (spansOf items).drop count = spansOf (items.drop count) := by
  induction count generalizing items with
  | zero => rfl
  | succ count ih =>
    cases items with
    | nil => rfl
    | cons item below => exact ih below

theorem ext {s t : Stack} (hs : s.spans.toList = t.spans.toList)
    (hb : ofArray s.buffer = ofArray t.buffer) : s = t := by
  have hspans : s.spans = t.spans := Array.toList_inj.mp hs
  have hbuffer : s.buffer = t.buffer := by
    rw [← toByteArray_ofArray s.buffer, hb, toByteArray_ofArray]
  cases s; cases t; cases hspans; cases hbuffer; rfl

@[simp] theorem push_ofItems (item : Bytes) :
    (ofItems items).push item = ofItems (item :: items) := rfl

@[simp] theorem append_ofItems (item : Bytes) :
    (ofItems items).append item.toByteArray = ofItems (item :: items) := rfl

variable {items}

theorem size_ofItems (h : items.length < 2 ^ 31) : (ofItems items).size.toInt = items.length := by
  rw [size, size_spans_ofItems, Int32.toInt_ofNat_of_lt h]

theorem toInt_size_le (s : Stack) : s.size.toInt ≤ s.spans.size := toInt_ofNat_le _

/-! ## Looking -/

/-- **The bytes at the place of an item** are the item. -/
theorem slice_ofItems (above : List Bytes) {below : List Bytes} {item : Bytes}
    (h : Placed (item :: below)) :
    (ofItems (above ++ item :: below)).slice ⟨.ofNat below.flatten.length, .ofNat item.length⟩ =
      .ok item.toByteArray := by
  have hstart : (Int32.ofNat below.flatten.length).toInt = below.flatten.length :=
    Int32.toInt_ofNat_of_lt h.1
  have hlength : (Int32.ofNat item.length).toInt = item.length := Int32.toInt_ofNat_of_lt h.2
  have hsize : (ofItems (above ++ item :: below)).buffer.size =
      above.flatten.length + (item.length + below.flatten.length) := by
    rw [size_buffer_ofItems, List.flatten_append, List.flatten_cons, List.length_append,
      List.length_append]
  unfold slice
  simp only [hstart, hlength, hsize]
  rw [if_pos (by omega)]
  refine congrArg Except.ok ?_
  rw [← toByteArray_ofArray (ByteArray.extract _ _ _), ofArray_extract, ofArray_buffer_ofItems]
  refine congrArg List.toByteArray ?_
  have hstop : ((below.flatten.length : Int) + item.length).toNat - below.flatten.length =
      item.length := by
    omega
  rw [List.extract_eq_take_drop, Int.toNat_natCast, hstop, List.reverse_append, List.reverse_cons,
    List.append_assoc, List.flatten_append, List.flatten_append, List.flatten_singleton,
    ← length_flatten_reverse below, List.drop_left, List.take_left]

/-- The span of an item, `n` items above the bottom and `k` items below the top. -/
theorem spanAt_ofItems {index : Int32} {n k : Nat} {item : Bytes} {below : List Bytes}
    (hindex : index.toInt = n) (hn : n + k + 1 = items.length)
    (hdrop : items.drop k = item :: below) :
    (ofItems items).spanAt index = .ok ⟨.ofNat below.flatten.length, .ofNat item.length⟩ := by
  have hnonneg : ¬ index < 0 := by
    rw [Int32.lt_iff_toInt_lt, hindex]
    exact Int.not_lt.mpr (Int.natCast_nonneg n)
  have hk : (spansOf items).length - 1 - n = k := by
    rw [length_spansOf]
    omega
  have hspan : (ofItems items).spans[n]? =
      some ⟨.ofNat below.flatten.length, .ofNat item.length⟩ := by
    rw [← Array.getElem?_toList, (toList_spans_ofItems items).1,
      List.getElem?_reverse (by rw [length_spansOf]; omega), hk, ← List.head?_drop, spansOf_drop,
      hdrop]
    rfl
  rw [spanAt, if_neg hnonneg, hindex, Int.toNat_natCast, hspan]

theorem top_ofItems_nil : (ofItems []).top = .error (.fault .topOfEmpty) := rfl

theorem top_ofItems_cons {item : Bytes} {below : List Bytes} (h : Placed (item :: below)) :
    (ofItems (item :: below)).top = .ok item.toByteArray := by
  have hback : (ofItems (item :: below)).spans.back? =
      some ⟨.ofNat below.flatten.length, .ofNat item.length⟩ := by
    rw [← Array.getLast?_toList, (toList_spans_ofItems _).1, List.getLast?_reverse]
    rfl
  have hslice := slice_ofItems [] h
  rw [List.nil_append] at hslice
  rw [top, hback]
  simp only [hslice]
  rfl

/-- Where a position is below the number of items, though it may be too large for an int, the index
that is made of the two is one of an item. -/
theorem index_eq {n : Nat} {position : Int} (hpos : 0 ≤ position)
    (hlt : position < (Int32.ofNat n).toInt) :
    ∃ k : Nat, (Int32.ofInt (n - 1 - position)).toInt = k ∧ k < n ∧
      (n < 2 ^ 31 → (k : Int) = n - 1 - position) := by
  have hvalue : (Int32.ofInt (n - 1 - position)).toInt = Int.bmod (n - 1 - position) Int32.size :=
    Int32.toInt_ofInt
  rw [Int.bmod_def, Int32.size] at hvalue
  rw [Int32.toInt_ofNat', Int.bmod_def, Int32.size] at hlt
  exact ⟨(Int32.ofInt (n - 1 - position)).toInt.toNat, by omega, by omega, by omega⟩

/-- **Looking at items** finds the item at the position, if there is one. -/
theorem peek_ofItems (h : Fits items) (position : Nat) :
    (ofItems items).peek position =
      items[position]?.elim (.error (.fault (.noItem position))) fun item =>
        .ok item.toByteArray := by
  rw [peek, size_ofItems h.count]
  by_cases hlt : position < items.length
  · rw [if_neg (by omega), size_spans_ofItems, List.getElem?_eq_getElem hlt]
    have hsize : (position : Int) < (Int32.ofNat items.length).toInt := by
      rw [Int32.toInt_ofNat_of_lt h.count]
      omega
    obtain ⟨k, hk, -, hexact⟩ := index_eq (Int.natCast_nonneg position) hsize
    have hk' := hexact h.count
    have hdrop := List.drop_eq_getElem_cons hlt
    have hslice := slice_ofItems (items.take position) (hdrop ▸ h.placed.drop position)
    rw [← hdrop, List.take_append_drop] at hslice
    rw [spanAt_ofItems hk (by omega) hdrop]
    exact congrArg (Except.mapError _) hslice
  · rw [if_pos (by omega), List.getElem?_eq_none (by omega)]
    rfl

/-- However many items there are, a look is refused as a fault or finds one of them. -/
theorem exists_item_of_peek (h : Placed items) (position : Int) :
    (ofItems items).peek position = .error (.fault (.noItem position)) ∨
      ∃ item ∈ items, (ofItems items).peek position = .ok item.toByteArray := by
  rw [peek, size_spans_ofItems]
  split
  · exact Or.inl rfl
  · next hrange =>
    rw [size, size_spans_ofItems, not_or, Int.not_lt, Int.not_le] at hrange
    obtain ⟨k, hk, hlt, -⟩ := index_eq hrange.1 hrange.2
    have hlt' : items.length - 1 - k < items.length := by omega
    have hdrop := List.drop_eq_getElem_cons hlt'
    have hslice := slice_ofItems (items.take (items.length - 1 - k))
      (hdrop ▸ h.drop (items.length - 1 - k))
    rw [← hdrop, List.take_append_drop] at hslice
    refine Or.inr ⟨items[items.length - 1 - k], List.getElem_mem hlt', ?_⟩
    rw [spanAt_ofItems hk (by omega) hdrop]
    exact congrArg (Except.mapError _) hslice

/-- A look at a stack of items never goes wrong from outside. -/
theorem top_ne_access (h : Placed items) (e : AccessError) :
    (ofItems items).top ≠ .error (.access e) := by
  cases items with
  | nil => rw [top_ofItems_nil]; simp
  | cons item below => rw [top_ofItems_cons h]; simp

theorem peek_ne_access (h : Placed items) (position : Int) (e : AccessError) :
    (ofItems items).peek position ≠ .error (.access e) := by
  obtain h | ⟨item, -, h⟩ := exists_item_of_peek h position <;> simp [h]

/-! ## Removing -/

/-- The stack of items of which the topmost `count` have lost their places. -/
def dropped (items : List Bytes) (count : Nat) : Stack :=
  { ofItems items with spans := (ofItems items).spans.shrink (items.length - count) }

theorem drop_ofItems (items : List Bytes) (count : Nat) : (ofItems items).drop count =
    if (ofItems items).size.toInt < count then
      .error (.popBeyond count (ofItems items).size.toInt)
    else .ok (dropped items count) := by
  rw [drop, size_spans_ofItems, dropped]

theorem toList_spans_dropped (count : Nat) :
    (dropped items count).spans.toList = (spansOf (items.drop count)).reverse := by
  rw [dropped, Array.toList_shrink, (toList_spans_ofItems items).1, ← spansOf_drop,
    List.reverse_drop, length_spansOf]

/-- The topmost item ends where the bytes end that lie below it and in it, or at the int that is
made of their number. -/
theorem stop_eq_ofNat {s : Stack} (hspans : s.spans.toList = (spansOf items).reverse) :
    s.stop = .ofNat items.flatten.length := by
  rw [stop, ← Array.getLast?_toList, hspans, List.getLast?_reverse]
  cases items with
  | nil => rfl
  | cons item below =>
    change Int32.ofNat below.flatten.length + Int32.ofNat item.length = _
    rw [← Int32.ofNat_add, List.flatten_cons, List.length_append, Nat.add_comm]

/-- It is exact if there are not too many bytes. -/
theorem stop_eq {s : Stack} (hspans : s.spans.toList = (spansOf items).reverse)
    (h : items.flatten.length < 2 ^ 31) :
    s.stop.toInt = items.flatten.length ∧ s.trimInts = .exact := by
  refine ⟨by rw [stop_eq_ofNat hspans, Int32.toInt_ofNat_of_lt h], ?_⟩
  rw [trimInts, ← Array.getLast?_toList, hspans, List.getLast?_reverse]
  cases items with
  | nil => rfl
  | cons item below =>
    rw [List.flatten_cons, List.length_append] at h
    have hoffset : (Int32.ofNat below.flatten.length).toInt = below.flatten.length :=
      Int32.toInt_ofNat_of_lt (by omega)
    have hsize : (Int32.ofNat item.length).toInt = item.length :=
      Int32.toInt_ofNat_of_lt (by omega)
    change Ints.mk (isInt32 ((Int32.ofNat below.flatten.length).toInt +
      (Int32.ofNat item.length).toInt)) true = _
    rw [hoffset, hsize, isInt32, decide_eq_true (by omega), decide_eq_true (by omega)]
    rfl

/-- **Removing items**: where they lay in the buffer is cut off. -/
theorem trim_dropped {count : Nat} (h : (items.drop count).flatten.length < 2 ^ 31) :
    (dropped items count).trim = .ok (ofItems (items.drop count)) := by
  have hbuffer : (dropped items count).buffer = (ofItems items).buffer := rfl
  have hbytes : items.flatten.length =
      (items.take count).flatten.length + (items.drop count).flatten.length := by
    rw [← List.length_append, ← List.flatten_append, List.take_append_drop]
  rw [trim, (stop_eq (toList_spans_dropped count) h).1, if_neg (by omega), hbuffer,
    size_buffer_ofItems, Int.toNat_natCast, Nat.sub_eq_zero_of_le (by omega)]
  refine congrArg Except.ok (ext ?_ ?_)
  · rw [toList_spans_dropped, (toList_spans_ofItems _).1]
  · have hparts : items.reverse.flatten =
        (items.drop count).reverse.flatten ++ (items.take count).reverse.flatten := by
      rw [← List.flatten_append, ← List.reverse_append, List.take_append_drop]
    change ofArray (_ ++ ByteArray.mk (Array.replicate 0 0)) = _
    rw [ofArray_append, ofArray_extract, ofArray_buffer_ofItems, ofArray_buffer_ofItems,
      List.extract_eq_take_drop, List.drop_zero, Nat.sub_zero, hparts,
      ← length_flatten_reverse (items.drop count), List.take_left]
    exact List.append_nil _

/-! ## The ints of one more item -/

theorem isInt32_natCast (n : Nat) : isInt32 n = true ↔ n < 2 ^ 31 := by
  rw [isInt32, Bool.and_eq_true, decide_eq_true_iff, decide_eq_true_iff]
  omega

theorem places_appendInts (item : Bytes) :
    ((ofItems items).appendInts item.toByteArray).places = true ↔ Placed (item :: items) := by
  rw [appendInts, Bool.and_eq_true, isInt32_natCast, isInt32_natCast, size_buffer_ofItems,
    List.size_toByteArray]
  rfl

theorem counts_appendInts (item : Bytes) :
    ((ofItems items).appendInts item.toByteArray).counts = true ↔
      (item :: items).length < 2 ^ 31 := by
  have hsize : ((ofItems items).spans.size : Int) + 1 = (item :: items).length := by
    rw [size_spans_ofItems, List.length_cons, Int.natCast_add, Int.natCast_one]
  rw [appendInts, hsize, isInt32_natCast]

theorem appendInts_eq_exact (item : Bytes) :
    (ofItems items).appendInts item.toByteArray = .exact ↔ Fits (item :: items) := by
  rw [Ints.eq_exact_iff, places_appendInts, counts_appendInts]
  exact ⟨fun h => ⟨h.1, h.2⟩, fun h => ⟨h.placed, h.count⟩⟩

/-! ## Holding items -/

/-- The spans are those of items that lie back to back from a start on, bottom first. -/
def LaidFrom : Nat → List Span → List Bytes → Prop
  | _, [], [] => True
  | start, span :: spans, item :: items =>
    span.offset.toInt = start ∧ span.size.toInt = item.length ∧
      LaidFrom (start + item.length) spans items
  | _, _, _ => False

/-- Items, bottom first, are laid out in the stack: the buffer has their bytes, and the spans are
their places. -/
structure LaidOut (s : Stack) (items : List Bytes) : Prop where
  laid : LaidFrom 0 s.spans.toList items
  buffer : ofArray s.buffer = items.flatten

/-- The stack holds items, bottom first: they are laid out in it, and the size is their number. -/
structure Holds (s : Stack) (items : List Bytes) : Prop extends LaidOut s items where
  size : s.size.toInt = items.length

section Holding

variable {spans : List Span} {below items : List Bytes} {s : Stack}

theorem toInt_eq_natCast_iff {i : Int32} {n : Nat} : i.toInt = n ↔ i = .ofNat n ∧ n < 2 ^ 31 := by
  constructor
  · intro h
    have hlt := i.toInt_lt
    refine ⟨?_, by omega⟩
    rw [← Int32.ofInt_eq_ofNat, ← h, Int32.ofInt_toInt]
  · rintro ⟨rfl, hn⟩
    exact Int32.toInt_ofNat_of_lt hn

theorem LaidFrom.length_eq {start : Nat} (h : LaidFrom start spans items) :
    spans.length = items.length := by
  fun_induction LaidFrom start spans items with
  | case1 => rfl
  | case2 start span spans item items ih => exact congrArg (· + 1) (ih h.2.2)
  | case3 => exact h.elim

/-- No item ends behind the last byte. -/
theorem LaidFrom.stop_le {start : Nat} (h : LaidFrom start spans items) :
    ∀ span ∈ spans, span.offset.toInt + span.size.toInt ≤ start + items.flatten.length := by
  fun_induction LaidFrom start spans items with
  | case1 => exact nofun
  | case2 start span spans item items ih =>
    obtain ⟨hoffset, hsize, hrest⟩ := h
    rw [List.flatten_cons, List.length_append]
    refine List.forall_mem_cons.mpr ⟨by omega, fun other hother => ?_⟩
    have hother := ih hrest other hother
    omega
  | case3 => exact h.elim

/-- Spans are laid upon those of the items below exactly if they are the spans of all items. -/
theorem laidFrom_iff (hbelow : Placed below) : LaidFrom below.flatten.length spans items ↔
    spans.reverse ++ spansOf below = spansOf (items.reverse ++ below) ∧
      Placed (items.reverse ++ below) := by
  -- up from the bottom: the first span is that of the lowest item, and goes over to those below
  induction items generalizing spans below with
  | nil =>
    cases spans with
    | nil => exact iff_of_true trivial ⟨rfl, hbelow⟩
    | cons span spans =>
      refine iff_of_false id fun h => ?_
      have hlength := congrArg List.length h.1
      simp only [List.length_append, List.length_reverse, List.length_cons, List.length_nil,
        length_spansOf] at hlength
      omega
  | cons item items ih =>
    rw [List.reverse_cons, List.append_assoc, List.singleton_append]
    cases spans with
    | nil =>
      refine iff_of_false id fun h => ?_
      have hlength := congrArg List.length h.1
      simp only [List.length_append, List.length_reverse, List.length_cons, List.length_nil,
        length_spansOf] at hlength
      omega
    | cons span spans =>
      rw [List.reverse_cons, List.append_assoc, List.singleton_append]
      have hstart : below.flatten.length + item.length = (item :: below).flatten.length := by
        rw [List.flatten_cons, List.length_append, Nat.add_comm]
      rw [LaidFrom, hstart, toInt_eq_natCast_iff, toInt_eq_natCast_iff]
      constructor
      · rintro ⟨⟨hoffset, hoffset'⟩, ⟨hsize, hsize'⟩, hlaid⟩
        have hitem : Placed (item :: below) := And.intro hoffset' hsize'
        obtain ⟨hspans, hplaced⟩ := (ih hitem).mp hlaid
        rw [spansOf] at hspans
        cases span
        cases hoffset
        cases hsize
        exact ⟨hspans, hplaced⟩
      · rintro ⟨hspans, hplaced⟩
        have hitem : Placed (item :: below) := hplaced.of_append
        have hparts := List.take_append_drop items.reverse.length
          (spansOf (items.reverse ++ item :: below))
        rw [spansOf_drop, List.drop_left, ← hspans] at hparts
        have htop := (List.append_inj' hparts (by simp)).2
        obtain ⟨rfl, -⟩ := List.cons.inj htop
        exact ⟨⟨rfl, hitem.1⟩, ⟨rfl, hitem.2⟩, (ih hitem).mpr ⟨hspans, hplaced⟩⟩

/-- **A stack in which items are laid out** is the stack of the items. -/
theorem laidOut_iff : s.LaidOut items ↔ s = ofItems items.reverse ∧ Placed items.reverse := by
  have hlaid : LaidFrom 0 s.spans.toList items ↔
      s.spans.toList.reverse ++ spansOf [] = spansOf (items.reverse ++ []) ∧
        Placed (items.reverse ++ []) := laidFrom_iff placed_nil
  rw [spansOf, List.append_nil, List.append_nil] at hlaid
  constructor
  · intro h
    obtain ⟨hspans, hplaced⟩ := hlaid.mp h.laid
    refine ⟨ext ?_ ?_, hplaced⟩
    · rw [(toList_spans_ofItems _).1, ← hspans, List.reverse_reverse]
    · rw [h.buffer, ofArray_buffer_ofItems, List.reverse_reverse]
  · rintro ⟨rfl, hplaced⟩
    refine ⟨hlaid.mpr ⟨?_, hplaced⟩, ?_⟩
    · rw [(toList_spans_ofItems _).1, List.reverse_reverse]
    · rw [ofArray_buffer_ofItems, List.reverse_reverse]

/-- **A stack that holds items** is the stack of the items, and they fit. -/
theorem holds_iff : s.Holds items ↔ s = ofItems items.reverse ∧ Fits items.reverse := by
  constructor
  · intro h
    obtain ⟨rfl, hplaced⟩ := laidOut_iff.mp h.toLaidOut
    have hsize := h.size
    rw [size, size_spans_ofItems, List.length_reverse, toInt_eq_natCast_iff] at hsize
    exact ⟨rfl, hplaced, by rw [List.length_reverse]; exact hsize.2⟩
  · rintro ⟨rfl, hfits⟩
    refine ⟨laidOut_iff.mpr ⟨rfl, hfits.placed⟩, ?_⟩
    rw [size_ofItems hfits.count, List.length_reverse]

theorem holds_ofItems (h : Fits items) : (ofItems items).Holds items.reverse :=
  holds_iff.mpr ⟨by rw [List.reverse_reverse], by rwa [List.reverse_reverse]⟩

theorem laidOut_ofItems (h : Placed items) : (ofItems items).LaidOut items.reverse :=
  laidOut_iff.mpr ⟨by rw [List.reverse_reverse], by rwa [List.reverse_reverse]⟩

section

variable {item a b : Bytes}

theorem Holds.concat (h : s.Holds (below ++ [item])) :
    s = ofItems (item :: below.reverse) ∧ Fits (item :: below.reverse) := by
  rw [← List.singleton_append, ← List.reverse_singleton, ← List.reverse_append]
  exact holds_iff.mp h

theorem Holds.concat_two (h : s.Holds (below ++ [a, b])) :
    s = ofItems (b :: a :: below.reverse) ∧ Fits (b :: a :: below.reverse) := by
  have hreverse : (below ++ [a, b]).reverse = b :: a :: below.reverse := by simp
  rw [← hreverse]
  exact holds_iff.mp h

theorem holds_concat (h : Fits (item :: below.reverse)) :
    (ofItems (item :: below.reverse)).Holds (below ++ [item]) := by
  rw [← List.reverse_reverse below, ← List.reverse_cons, List.reverse_reverse]
  exact holds_ofItems h

end

/-- The topmost item ends where the buffer ends. -/
theorem LaidOut.stop_eq (h : s.LaidOut items) (hbytes : items.flatten.length < 2 ^ 31) :
    s.stop.toInt = s.buffer.size := by
  obtain ⟨rfl, -⟩ := laidOut_iff.mp h
  rw [← length_flatten_reverse] at hbytes
  rw [(Stack.stop_eq (toList_spans_ofItems _).1 hbytes).1, size_buffer_ofItems]

/-- All items are seen. -/
theorem toList_ofItems (h : Placed items) : (ofItems items).toList = items.reverse := by
  rw [toList, (toList_spans_ofItems items).1, List.map_reverse, List.reverse_inj]
  suffices hmap : ∀ above below : List Bytes, items = above ++ below →
      (spansOf below).map (fun span =>
        (((ofItems items).slice span).toOption.map ofArray).getD []) = below from
    hmap [] items rfl
  intro above below hitems
  induction below generalizing above with
  | nil => rfl
  | cons item below ih =>
    subst hitems
    have hslice := slice_ofItems above h.of_append
    rw [spansOf, List.map_cons, hslice, ih (above ++ [item]) (by simp)]
    exact congrArg (· :: below) (ofArray_toByteArray item)

theorem LaidOut.toList (h : s.LaidOut items) : s.toList = items := by
  obtain ⟨rfl, hplaced⟩ := laidOut_iff.mp h
  rw [toList_ofItems hplaced, List.reverse_reverse]

/-- **The stack determines the items** that have exact places. -/
theorem ofItems_inj {other : List Bytes} (h : Placed items) (heq : ofItems other = ofItems items) :
    other = items := by
  have hspans := congrArg (fun s => s.spans.toList) heq
  simp only [(toList_spans_ofItems _).1, List.reverse_inj] at hspans
  have hbytes := congrArg (fun s => ofArray s.buffer) heq
  simp only [ofArray_buffer_ofItems] at hbytes
  clear heq
  induction items generalizing other with
  | nil =>
    have hlength := congrArg List.length hspans
    rw [length_spansOf, length_spansOf] at hlength
    exact List.eq_nil_of_length_eq_zero hlength
  | cons item below ih =>
    cases other with
    | nil => cases hspans
    | cons item' below' =>
      obtain ⟨hspan, hspans⟩ := List.cons.inj hspans
      rw [List.reverse_cons, List.reverse_cons, List.flatten_append, List.flatten_append,
        List.flatten_singleton, List.flatten_singleton] at hbytes
      have hlength := congrArg List.length hbytes
      rw [List.length_append, List.length_append, length_flatten_reverse,
        length_flatten_reverse] at hlength
      have hplaced : below.flatten.length < 2 ^ 31 ∧ item.length < 2 ^ 31 := h
      have hoffset : below'.flatten.length % 2 ^ 32 = below.flatten.length % 2 ^ 32 := by
        have hoffset := congrArg Int32.toUInt32 (congrArg Span.offset hspan)
        simpa using congrArg UInt32.toNat hoffset
      rw [Nat.mod_eq_of_lt (by omega), Nat.mod_eq_of_lt (by omega)] at hoffset
      obtain ⟨hbelow, hitem⟩ := List.append_inj hbytes (by
        rw [length_flatten_reverse, length_flatten_reverse, hoffset])
      rw [hitem, ih h.tail hspans hbelow]

end Holding

end Stack

end SpendScript
