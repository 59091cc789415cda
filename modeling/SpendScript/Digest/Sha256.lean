import SpendScript.Digest

/-!
# SHA-256

A message is taken in as it comes: full blocks of 64 bytes are compressed one after the other, and
what is left over is completed by a one bit, zeros and the length in bits to one or two blocks
more.

* `State`, `compress`: the eight chaining words and the compression of one block;
* `absorb`: the compression of the full blocks at the front of a message;
* `tail`: the last one or two blocks;
* `hash`: the digest.
-/

namespace SpendScript.Sha256

/-! ## Words -/

def rotateRight (count x : UInt32) : UInt32 := (x >>> count) ||| (x <<< (32 - count))

def choose (x y z : UInt32) : UInt32 := (x &&& y) ^^^ (~~~x &&& z)

def majority (x y z : UInt32) : UInt32 := (x &&& y) ^^^ (x &&& z) ^^^ (y &&& z)

def bigSigma0 (x : UInt32) : UInt32 := rotateRight 2 x ^^^ rotateRight 13 x ^^^ rotateRight 22 x

def bigSigma1 (x : UInt32) : UInt32 := rotateRight 6 x ^^^ rotateRight 11 x ^^^ rotateRight 25 x

def smallSigma0 (x : UInt32) : UInt32 := rotateRight 7 x ^^^ rotateRight 18 x ^^^ (x >>> 3)

def smallSigma1 (x : UInt32) : UInt32 := rotateRight 17 x ^^^ rotateRight 19 x ^^^ (x >>> 10)

def roundConstants : List UInt32 :=
  [0x428a2f98, 0x71374491, 0xb5c0fbcf, 0xe9b5dba5, 0x3956c25b, 0x59f111f1, 0x923f82a4, 0xab1c5ed5,
   0xd807aa98, 0x12835b01, 0x243185be, 0x550c7dc3, 0x72be5d74, 0x80deb1fe, 0x9bdc06a7, 0xc19bf174,
   0xe49b69c1, 0xefbe4786, 0x0fc19dc6, 0x240ca1cc, 0x2de92c6f, 0x4a7484aa, 0x5cb0a9dc, 0x76f988da,
   0x983e5152, 0xa831c66d, 0xb00327c8, 0xbf597fc7, 0xc6e00bf3, 0xd5a79147, 0x06ca6351, 0x14292967,
   0x27b70a85, 0x2e1b2138, 0x4d2c6dfc, 0x53380d13, 0x650a7354, 0x766a0abb, 0x81c2c92e, 0x92722c85,
   0xa2bfe8a1, 0xa81a664b, 0xc24b8b70, 0xc76c51a3, 0xd192e819, 0xd6990624, 0xf40e3585, 0x106aa070,
   0x19a4c116, 0x1e376c08, 0x2748774c, 0x34b0bcb5, 0x391c0cb3, 0x4ed8aa4a, 0x5b9cca4f, 0x682e6ff3,
   0x748f82ee, 0x78a5636f, 0x84c87814, 0x8cc70208, 0x90befffa, 0xa4506ceb, 0xbef9a3f7, 0xc67178f2]

/-! ## One block -/

structure State where
  a : UInt32
  b : UInt32
  c : UInt32
  d : UInt32
  e : UInt32
  f : UInt32
  g : UInt32
  h : UInt32
  deriving DecidableEq, Repr

def initial : State :=
  ⟨0x6a09e667, 0xbb67ae85, 0x3c6ef372, 0xa54ff53a, 0x510e527f, 0x9b05688c, 0x1f83d9ab, 0x5be0cd19⟩

def State.add (s t : State) : State :=
  ⟨s.a + t.a, s.b + t.b, s.c + t.c, s.d + t.d, s.e + t.e, s.f + t.f, s.g + t.g, s.h + t.h⟩

def State.words (s : State) : List UInt32 := [s.a, s.b, s.c, s.d, s.e, s.f, s.g, s.h]

/-- The big-endian words of a byte sequence; an incomplete word at the end is dropped. -/
def wordsOf : Bytes → List UInt32
  | b0 :: b1 :: b2 :: b3 :: rest => UInt32.ofNat (Bytes.toNatBE [b0, b1, b2, b3]) :: wordsOf rest
  | _ => []

/-- Puts `count` more words in front of a schedule that is held newest first. -/
def extend : Nat → List UInt32 → List UInt32
  | 0, ws => ws
  | count + 1, ws =>
    extend count
      ((smallSigma1 (ws.getD 1 0) + ws.getD 6 0 + smallSigma0 (ws.getD 14 0) + ws.getD 15 0) :: ws)

/-- The 64 words of the message schedule of a block of 16. -/
def schedule (block : List UInt32) : List UInt32 := (extend 48 block.reverse).reverse

def round (s : State) (kw : UInt32 × UInt32) : State :=
  let t1 := s.h + bigSigma1 s.e + choose s.e s.f s.g + kw.1 + kw.2
  let t2 := bigSigma0 s.a + majority s.a s.b s.c
  ⟨t1 + t2, s.a, s.b, s.c, s.d + t1, s.e, s.f, s.g⟩

/-- The state after one block of 64 bytes. -/
def compress (s : State) (block : Bytes) : State :=
  s.add ((roundConstants.zip (schedule (wordsOf block))).foldl round s)

/-! ## A message -/

/-- Compresses `count` blocks from the front and returns what follows them. -/
def absorb : Nat → State → Bytes → State × Bytes
  | 0, s, message => (s, message)
  | count + 1, s, message => absorb count (compress s (message.take 64)) (message.drop 64)

/-- The last blocks of a message of `total` bytes of which `rest`, less than a block, is left: a
second block is needed if fewer than nine bytes remain in the first. -/
def tail (rest : Bytes) (total : Nat) : Bytes :=
  let size := if rest.length + 9 ≤ 64 then 64 else 128
  rest ++ 0x80 :: List.replicate (size - 9 - rest.length) 0 ++ Bytes.ofNatBE 8 (8 * total)

def run (message : Bytes) : State :=
  let (s, rest) := absorb (message.length / 64) initial message
  let last := tail rest message.length
  (absorb (last.length / 64) s last).1

/-- The bytes of a state, word by word, most significant byte first. -/
def State.digest (s : State) : Hash256 :=
  ⟨s.words.flatMap fun w => Bytes.ofNatBE 4 w.toNat, by simp [State.words]⟩

def hash (message : Bytes) : Hash256 := (run message).digest

end SpendScript.Sha256
