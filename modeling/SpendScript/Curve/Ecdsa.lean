import SpendScript.Curve.Secp256k1
import SpendScript.Digest
import SpendScript.Log

/-!
# ECDSA signatures over secp256k1

A public key is a point in one of the standard forms: infinity, compressed, full, or full with the
parity written twice. A signature is a pair of numbers in strict DER form.

* `publicKey?`: the point of an encoded key;
* `signature?`: the two numbers of an encoded signature;
* `accepts`: the verification equation;
* `verify`: all together, with the log entry for a key that is no point.
-/

namespace SpendScript.Ecdsa

open Secp256k1

/-! ## Keys -/

/-- The point with both coordinates given, 32 bytes each. -/
def fullPoint? (coordinates : Bytes) : Option Point :=
  let point := Point.affine (Bytes.toNatBE (coordinates.take 32)) (Bytes.toNatBE (coordinates.drop 32))
  if coordinates.length = 64 ∧ point.onCurve then some point else none

def hasParity (parity : Nat) : Point → Bool
  | .infinity => false
  | .affine _ y => y % 2 == parity

/-- The point of an encoded public key. The first byte names the form; its low bit is the parity
of the second coordinate where the form carries one. -/
def publicKey? : Bytes → Option Point
  | [] => none
  | form :: body =>
    let parity := form.toNat % 2
    match form.toNat with
    | 0 => if body.isEmpty then some .infinity else none
    | 2 | 3 =>
      let x := Bytes.toNatBE body
      if body.length = 32 ∧ x < prime then Point.ofX? x parity else none
    | 4 => fullPoint? body
    | 6 | 7 => (fullPoint? body).filter (hasParity parity)
    | _ => none

/-! ## Signatures -/

/-- A non-negative number in as few bytes as its sign bit allows. -/
def isMinimalNumber : Bytes → Bool
  | [] => false
  | [b] => b < 0x80
  | b :: next :: _ => b < 0x80 && (b != 0 || next ≥ 0x80)

/-- A tagged value with a one-byte length at the front of `input`, and what follows it. -/
def tagged? (tag : UInt8) : Bytes → Option (Bytes × Bytes)
  | t :: length :: rest =>
    let value := rest.take length.toNat
    if t = tag ∧ length < 0x80 ∧ value.length = length.toNat then
      some (value, rest.drop length.toNat)
    else none
  | _ => none

/-- A number at the front of `input`, and what follows it. -/
def number? (input : Bytes) : Option (Nat × Bytes) := do
  let (value, rest) ← tagged? 0x02 input
  if isMinimalNumber value then some (Bytes.toNatBE value, rest) else none

/-- The two numbers of a signature: a sequence of exactly two numbers and nothing after it. Longer
forms of the length are left out, as they only serve numbers that no signature can hold. -/
def signature? (input : Bytes) : Option (Nat × Nat) := do
  let (body, after) ← tagged? 0x30 input
  let (r, body) ← number? body
  let (s, body) ← number? body
  if after.isEmpty && body.isEmpty then some (r, s) else none

/-! ## Verification -/

/-- The verification equation: with `e` the digest as a number, the first coordinate of
`(e / s) G + (r / s) Q` is `r` modulo the group order. -/
def accepts (key : Point) (r s : Nat) (digest : Hash256) : Bool :=
  if 1 ≤ r ∧ r < order ∧ 1 ≤ s ∧ s < order then
    let inverse := invMod order s
    let u := Bytes.toNatBE digest.bytes * inverse % order
    let v := r * inverse % order
    match Point.combine u v key with
    | .infinity => false
    | .affine x _ => x % order == r
  else false

/-- Whether `signature` is a signature of `digest` by the owner of `key`. An empty key or
signature is refused without looking at the other. -/
def verify (key signature : Bytes) (digest : Hash256) : Bool × Log :=
  if key.isEmpty || signature.isEmpty then (false, [])
  else
    match publicKey? key with
    | none => (false, Log.debug s!"Rejected public key of {key.length} bytes.")
    | some point =>
      match signature? signature with
      | none => (false, [])
      | some (r, s) => (accepts point r s digest, [])

end SpendScript.Ecdsa
