import SpendScript.Digest

/-!
# RIPEMD-160

Two lines of eighty rounds run over the same sixteen words of a block, in different orders and
with different rotations, and are added crosswise into the chaining words.

* `Line`, `left`, `right`: the order of words, the rotations and the constants of the two lines;
* `compress`, `pad`, `hash`.
-/

namespace SpendScript.Ripemd160

structure State where
  a : UInt32
  b : UInt32
  c : UInt32
  d : UInt32
  e : UInt32
  deriving DecidableEq, Repr

def initial : State := ⟨0x67452301, 0xefcdab89, 0x98badcfe, 0x10325476, 0xc3d2e1f0⟩

def rotateLeft (count x : UInt32) : UInt32 := (x <<< count) ||| (x >>> (32 - count))

/-- The five mixing functions, each used in one group of sixteen rounds. -/
def mixers : List (UInt32 → UInt32 → UInt32 → UInt32) :=
  [fun x y z => x ^^^ y ^^^ z,
   fun x y z => (x &&& y) ||| (~~~x &&& z),
   fun x y z => (x ||| ~~~y) ^^^ z,
   fun x y z => (x &&& z) ||| (y &&& ~~~z),
   fun x y z => x ^^^ (y ||| ~~~z)]

/-- A line of rounds: in groups of sixteen a mixing function and a constant, and for each round
the index of its word and its rotation. -/
structure Line where
  mixers : List (UInt32 → UInt32 → UInt32 → UInt32)
  constants : List UInt32
  indices : List Nat
  rotations : List UInt32

def left : Line where
  mixers := mixers
  constants := [0x00000000, 0x5a827999, 0x6ed9eba1, 0x8f1bbcdc, 0xa953fd4e]
  indices :=
    [0, 1, 2, 3, 4, 5, 6, 7, 8, 9, 10, 11, 12, 13, 14, 15,
     7, 4, 13, 1, 10, 6, 15, 3, 12, 0, 9, 5, 2, 14, 11, 8,
     3, 10, 14, 4, 9, 15, 8, 1, 2, 7, 0, 6, 13, 11, 5, 12,
     1, 9, 11, 10, 0, 8, 12, 4, 13, 3, 7, 15, 14, 5, 6, 2,
     4, 0, 5, 9, 7, 12, 2, 10, 14, 1, 3, 8, 11, 6, 15, 13]
  rotations :=
    [11, 14, 15, 12, 5, 8, 7, 9, 11, 13, 14, 15, 6, 7, 9, 8,
     7, 6, 8, 13, 11, 9, 7, 15, 7, 12, 15, 9, 11, 7, 13, 12,
     11, 13, 6, 7, 14, 9, 13, 15, 14, 8, 13, 6, 5, 12, 7, 5,
     11, 12, 14, 15, 14, 15, 9, 8, 9, 14, 5, 6, 8, 6, 5, 12,
     9, 15, 5, 11, 6, 8, 13, 12, 5, 12, 13, 14, 11, 8, 5, 6]

def right : Line where
  mixers := mixers.reverse
  constants := [0x50a28be6, 0x5c4dd124, 0x6d703ef3, 0x7a6d76e9, 0x00000000]
  indices :=
    [5, 14, 7, 0, 9, 2, 11, 4, 13, 6, 15, 8, 1, 10, 3, 12,
     6, 11, 3, 7, 0, 13, 5, 10, 14, 15, 8, 12, 4, 9, 1, 2,
     15, 5, 1, 3, 7, 14, 6, 9, 11, 8, 12, 2, 10, 0, 4, 13,
     8, 6, 4, 1, 3, 11, 15, 0, 5, 12, 2, 13, 9, 7, 10, 14,
     12, 15, 10, 4, 1, 5, 8, 7, 6, 2, 13, 14, 0, 3, 9, 11]
  rotations :=
    [8, 9, 9, 11, 13, 15, 15, 5, 7, 7, 8, 11, 14, 14, 12, 6,
     9, 13, 15, 7, 12, 8, 9, 11, 7, 7, 12, 7, 6, 15, 13, 11,
     9, 7, 15, 11, 8, 6, 6, 14, 12, 13, 5, 14, 13, 13, 7, 5,
     15, 5, 8, 11, 14, 14, 6, 14, 6, 9, 12, 9, 12, 5, 15, 8,
     8, 5, 12, 9, 12, 5, 14, 6, 8, 13, 6, 5, 15, 13, 11, 11]

/-- The little-endian words of a byte sequence; an incomplete word at the end is dropped. -/
def wordsOf : Bytes → List UInt32
  | b0 :: b1 :: b2 :: b3 :: rest => UInt32.ofNat (Bytes.toNatLE [b0, b1, b2, b3]) :: wordsOf rest
  | _ => []

def round (s : State) (mix : UInt32 → UInt32 → UInt32 → UInt32) (constant word count : UInt32) :
    State :=
  ⟨s.e, rotateLeft count (s.a + mix s.b s.c s.d + word + constant) + s.e, s.b, rotateLeft 10 s.c,
    s.d⟩

/-- All eighty rounds of a line. -/
def Line.run (line : Line) (words : Array UInt32) (s : State) : State :=
  let sixteenfold {α : Type} (xs : List α) : List α := xs.flatMap (List.replicate 16)
  let rounds := (sixteenfold line.mixers).zip ((sixteenfold line.constants).zip
    (line.indices.zip line.rotations))
  rounds.foldl (fun s (mix, constant, index, count) => round s mix constant (words.getD index 0) count)
    s

/-- The state after one block of 64 bytes. -/
def compress (s : State) (block : Bytes) : State :=
  let words := (wordsOf block).toArray
  let l := left.run words s
  let r := right.run words s
  ⟨s.b + l.c + r.d, s.c + l.d + r.e, s.d + l.e + r.a, s.e + l.a + r.b, s.a + l.b + r.c⟩

/-- The message followed by a one bit, zeros and its length in bits, in whole blocks. -/
def pad (message : Bytes) : Bytes :=
  message ++ 0x80 :: List.replicate ((119 - message.length % 64) % 64) 0 ++
    Bytes.ofNatLE 8 (8 * message.length)

def absorb : Nat → State → Bytes → State
  | 0, s, _ => s
  | count + 1, s, message => absorb count (compress s (message.take 64)) (message.drop 64)

def hash (message : Bytes) : Hash160 :=
  let padded := pad message
  let s := absorb (padded.length / 64) initial padded
  ⟨[s.a, s.b, s.c, s.d, s.e].flatMap fun w => Bytes.ofNatLE 4 w.toNat, by simp⟩

end SpendScript.Ripemd160
