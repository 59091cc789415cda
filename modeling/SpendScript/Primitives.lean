import SpendScript.Curve.Ecdsa
import SpendScript.Digest.Ripemd160
import SpendScript.Digest.Sha256

/-!
# Cryptographic primitives

What the verifier takes from cryptography is gathered in one record, so that everything built on
it holds for any functions of these types.

* `Primitives`: two digests and the check of a signature;
* `Primitives.hash256`, `Primitives.hash160`: the digests of digests that the format uses;
* `Primitives.standard`: the functions that the program runs with.
-/

namespace SpendScript

/-- The functions that addresses, transaction ids and signature checks rest on. -/
structure Primitives where
  sha256 : Bytes → Hash256
  ripemd160 : Bytes → Hash160
  /-- Whether a key signed a digest, with what there is to log about it. -/
  verify : (key signature : Bytes) → Hash256 → Bool × Log

namespace Primitives

variable (p : Primitives)

/-- SHA-256 twice. -/
def hash256 (data : Bytes) : Hash256 := p.sha256 (p.sha256 data).bytes

/-- SHA-256, then RIPEMD-160. -/
def hash160 (data : Bytes) : Hash160 := p.ripemd160 (p.sha256 data).bytes

/-- SHA-256, RIPEMD-160 and ECDSA over secp256k1. -/
def standard : Primitives where
  sha256 := Sha256.hash
  ripemd160 := Ripemd160.hash
  verify := Ecdsa.verify

end Primitives

end SpendScript
