/-!
# The curve secp256k1

The points with `y² = x³ + 7` over the integers modulo a prime, and the point at infinity. Sums are
computed in Jacobian coordinates, where `(X, Y, Z)` stands for `x = X / Z²`, `y = Y / Z³`, so that
only the final result needs a division.

* `prime`, `order`, `Point`, `generator`;
* `Jacobian.double`, `Jacobian.add`, `Jacobian.scale`;
* `Point.combine`: `u G + v Q`.
-/

namespace SpendScript.Secp256k1

/-- The order of the field of coordinates. -/
def prime : Nat := 0xfffffffffffffffffffffffffffffffffffffffffffffffffffffffefffffc2f

/-- The order of the group of points. -/
def order : Nat := 0xfffffffffffffffffffffffffffffffebaaedce6af48a03bbfd25e8cd0364141

/-- `base ^ exponent` modulo `modulus`, for exponents of at most `bits` bits. -/
def powMod (modulus : Nat) : Nat → Nat → Nat → Nat
  | 0, _, _ => 1 % modulus
  | bits + 1, base, exponent =>
    let square := powMod modulus bits (base * base % modulus) (exponent / 2)
    if exponent % 2 = 1 then base * square % modulus else square

def invMod (modulus a : Nat) : Nat := powMod modulus 256 (a % modulus) (modulus - 2)

/-- The difference modulo the field's prime of two reduced numbers. -/
def sub (a b : Nat) : Nat := (a + prime - b) % prime

/-! ## Points -/

inductive Point
  | infinity
  | affine (x y : Nat)
  deriving DecidableEq, Repr

/-- The right-hand side of the curve's equation. -/
def cubic (x : Nat) : Nat := (x * x % prime * x + 7) % prime

/-- Reduced coordinates that satisfy the equation; infinity always counts. -/
def Point.onCurve : Point → Bool
  | .infinity => true
  | .affine x y => x < prime && y < prime && y * y % prime == cubic x

/-- The point with this reduced first coordinate and a second coordinate of this parity. -/
def Point.ofX? (x parity : Nat) : Option Point :=
  let root := powMod prime 256 (cubic x) ((prime + 1) / 4)
  let y := if root % 2 = parity then root else prime - root
  let point := Point.affine x y
  if point.onCurve then some point else none

def generator : Point :=
  .affine 0x79be667ef9dcbbac55a06295ce870b07029bfcdb2dce28d959f2815b16f81798
    0x483ada7726a3c4655da4fbfc0e1108a8fd17b448a68554199c47d08ffb10d4b8

/-! ## Jacobian coordinates -/

/-- A point up to a common scale; `z = 0` is the point at infinity. -/
structure Jacobian where
  x : Nat
  y : Nat
  z : Nat
  deriving Repr

namespace Jacobian

def infinity : Jacobian := ⟨1, 1, 0⟩

def ofPoint : Point → Jacobian
  | .infinity => infinity
  | .affine x y => ⟨x, y, 1⟩

def toPoint (p : Jacobian) : Point :=
  if p.z = 0 then .infinity
  else
    let inverse := invMod prime p.z
    let square := inverse * inverse % prime
    .affine (p.x * square % prime) (p.y * (square * inverse % prime) % prime)

def double (p : Jacobian) : Jacobian :=
  if p.z = 0 ∨ p.y = 0 then infinity
  else
    let y2 := p.y * p.y % prime
    let s := 4 * p.x * y2 % prime
    let m := 3 * p.x * p.x % prime
    let x := sub (m * m % prime) (2 * s % prime)
    ⟨x, sub (m * sub s x % prime) (8 * y2 * y2 % prime), 2 * p.y * p.z % prime⟩

def add (p q : Jacobian) : Jacobian :=
  if p.z = 0 then q
  else if q.z = 0 then p
  else
    let pz2 := p.z * p.z % prime
    let qz2 := q.z * q.z % prime
    let u1 := p.x * qz2 % prime
    let u2 := q.x * pz2 % prime
    let s1 := p.y * qz2 % prime * q.z % prime
    let s2 := q.y * pz2 % prime * p.z % prime
    let h := sub u2 u1
    let r := sub s2 s1
    if h = 0 then
      if r = 0 then double p else infinity
    else
      let h2 := h * h % prime
      let h3 := h2 * h % prime
      let v := u1 * h2 % prime
      let x := sub (sub (r * r % prime) h3) (2 * v % prime)
      ⟨x, sub (r * sub v x % prime) (s1 * h3 % prime), h * p.z % prime * q.z % prime⟩

def scale : Nat → Nat → Jacobian → Jacobian
  | 0, _, _ => infinity
  | bits + 1, factor, p =>
    let even := double (scale bits (factor / 2) p)
    if factor % 2 = 1 then add even p else even

end Jacobian

def Point.combine (u v : Nat) (q : Point) : Point :=
  (Jacobian.add (Jacobian.scale 256 u (.ofPoint generator)) (Jacobian.scale 256 v (.ofPoint q))).toPoint

end SpendScript.Secp256k1
