import Mathlib.Data.Nat.Find
import Mathlib.Data.Nat.NthRoot.Defs
import Mathlib.Data.Nat.Prime.Basic
import SpendScript.Bytes

/-!
# SHA-256 by the standard

The procedure of FIPS 180-4. The whole message is padded before anything is compressed, and words,
rounds and blocks are numbered, so that each is given by an equation for its number. Words are
vectors of 32 bits; the constants are the first bits of roots of primes.

* `primes`, **`primes_eq_filter`**, `roundConstant`, `initialWord`: the constants;
* `scheduleWord`, `working`, `compress`: the message schedule, the working variables after some
  rounds, and the compression of one block;
* `zeroCount`, `pad`: the padded message;
* `hashValue`, `hash`: the hash value after some blocks, and the digest.
-/

namespace SpendScript.Sha256.Standard

/-! ## Functions on words -/

abbrev Word := BitVec 32

def choose (x y z : Word) : Word := (x &&& y) ^^^ (~~~x &&& z)

def majority (x y z : Word) : Word := (x &&& y) ^^^ (x &&& z) ^^^ (y &&& z)

def bigSigma0 (x : Word) : Word := x.rotateRight 2 ^^^ x.rotateRight 13 ^^^ x.rotateRight 22

def bigSigma1 (x : Word) : Word := x.rotateRight 6 ^^^ x.rotateRight 11 ^^^ x.rotateRight 25

def smallSigma0 (x : Word) : Word := x.rotateRight 7 ^^^ x.rotateRight 18 ^^^ (x >>> 3)

def smallSigma1 (x : Word) : Word := x.rotateRight 17 ^^^ x.rotateRight 19 ^^^ (x >>> 10)

/-! ## Constants -/

/-- The first sixty-four primes. -/
def primes : List Nat :=
  [2, 3, 5, 7, 11, 13, 17, 19, 23, 29, 31, 37, 41, 43, 47, 53, 59, 61, 67, 71, 73, 79, 83, 89, 97,
   101, 103, 107, 109, 113, 127, 131, 137, 139, 149, 151, 157, 163, 167, 173, 179, 181, 191, 193,
   197, 199, 211, 223, 227, 229, 233, 239, 241, 251, 257, 263, 269, 271, 277, 281, 283, 293, 307,
   311]

/-- Below 312 a number is prime if no number below 18 divides it without need. -/
theorem prime_iff {n : Nat} (hn : n < 312) :
    n.Prime ↔ 2 ≤ n ∧ ∀ m < 18, 2 ≤ m → m < n → ¬ m ∣ n := by
  rw [Nat.prime_def_le_sqrt]
  refine and_congr_right fun h2 => ⟨fun h m _ hm hlt hdvd => ?_, fun h m hm hle => ?_⟩
  · -- a divisor beyond the root has a cofactor before it
    obtain ⟨k, rfl⟩ := hdvd
    have hk : 2 ≤ k := by
      by_contra hk
      have : k = 0 ∨ k = 1 := by omega
      rcases this with rfl | rfl <;> omega
    by_cases hmk : m ≤ k
    · exact h m hm (Nat.le_sqrt.mpr (Nat.mul_le_mul_left m hmk)) (Nat.dvd_mul_right m k)
    · exact h k hk (Nat.le_sqrt.mpr (Nat.mul_le_mul_right k (by omega))) (Nat.dvd_mul_left k m)
  · have hsq : m * m ≤ n := Nat.le_sqrt.mp hle
    have hdouble : m * 2 ≤ m * m := Nat.mul_le_mul_left m hm
    refine h m ?_ hm (by omega)
    by_contra hlt
    have : 18 * 18 ≤ m * m := Nat.mul_le_mul (by omega) (by omega)
    omega

theorem primes_eq_filter : primes = (List.range 312).filter fun n => n.Prime := by
  have htest : ((List.range 312).filter fun n => n.Prime) =
      (List.range 312).filter fun n => 2 ≤ n ∧ ∀ m < 18, 2 ≤ m → m < n → ¬ m ∣ n :=
    List.filter_congr fun n hn => decide_eq_decide.mpr (prime_iff (List.mem_range.mp hn))
  rw [htest]
  decide +kernel

/-- The first 32 bits of the fraction of the cube root of a prime. -/
def roundConstant (t : Nat) : Word := .ofNat 32 (Nat.nthRoot 3 (primes.getD t 0 * 2 ^ 96))

/-- The first 32 bits of the fraction of the square root of a prime. -/
def initialWord (i : Nat) : Word := .ofNat 32 (Nat.nthRoot 2 (primes.getD i 0 * 2 ^ 64))

/-! ## One block -/

/-- Word `j` of a block, most significant byte first. -/
def blockWord (block : Bytes) (j : Nat) : Word :=
  (block.getD (4 * j) 0).toBitVec ++ (block.getD (4 * j + 1) 0).toBitVec ++
    (block.getD (4 * j + 2) 0).toBitVec ++ (block.getD (4 * j + 3) 0).toBitVec

/-- Word `t` of the message schedule. -/
def scheduleWord (block : Bytes) (t : Nat) : Word :=
  if t < 16 then blockWord block t
  else smallSigma1 (scheduleWord block (t - 2)) + scheduleWord block (t - 7) +
    smallSigma0 (scheduleWord block (t - 15)) + scheduleWord block (t - 16)

/-- Eight words: a hash value, or the working variables of a compression. -/
structure Words where
  a : Word
  b : Word
  c : Word
  d : Word
  e : Word
  f : Word
  g : Word
  h : Word
  deriving DecidableEq

/-- The working variables after `t` rounds on a block, from a hash value on. -/
def working (value : Words) (block : Bytes) : Nat → Words
  | 0 => value
  | t + 1 =>
    let ⟨a, b, c, d, e, f, g, h⟩ := working value block t
    let t1 := h + bigSigma1 e + choose e f g + roundConstant t + scheduleWord block t
    let t2 := bigSigma0 a + majority a b c
    ⟨t1 + t2, a, b, c, d + t1, e, f, g⟩

/-- The hash value after a block: 64 rounds, added to the value before it. -/
def compress (value : Words) (block : Bytes) : Words :=
  let ⟨a, b, c, d, e, f, g, h⟩ := working value block 64
  ⟨a + value.a, b + value.b, c + value.c, d + value.d, e + value.e, f + value.f, g + value.g,
    h + value.h⟩

/-! ## A message -/

theorem exists_zeroCount (length : Nat) : ∃ k, (length + 1 + k) % 64 = 56 :=
  ⟨119 - length % 64, by omega⟩

/-- The least number of zero bytes that, behind a message and one byte more, leave eight bytes of a
block. -/
def zeroCount (length : Nat) : Nat := Nat.find (exists_zeroCount length)

/-- The last `width` bytes of a number, most significant first. -/
def bigEndian (width n : Nat) : Bytes :=
  (List.range width).map fun i => UInt8.ofNat (n / 256 ^ (width - 1 - i))

/-- The message with a one bit, zeros and its length in bits behind it. -/
def pad (message : Bytes) : Bytes :=
  message ++ [0x80] ++ List.replicate (zeroCount message.length) 0 ++
    bigEndian 8 (8 * message.length)

def block (padded : Bytes) (i : Nat) : Bytes := (padded.drop (64 * i)).take 64

/-- The hash value after `i` blocks. -/
def hashValue (padded : Bytes) : Nat → Words
  | 0 => ⟨initialWord 0, initialWord 1, initialWord 2, initialWord 3, initialWord 4, initialWord 5,
      initialWord 6, initialWord 7⟩
  | i + 1 => compress (hashValue padded i) (block padded i)

/-- The words of the last hash value, most significant byte first. -/
def hash (message : Bytes) : Bytes :=
  let padded := pad message
  let ⟨a, b, c, d, e, f, g, h⟩ := hashValue padded (padded.length / 64)
  [a, b, c, d, e, f, g, h].flatMap fun word => bigEndian 4 word.toNat

end SpendScript.Sha256.Standard
