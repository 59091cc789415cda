import SpendScript.Bytes
import SpendScript.Base58.Radix

/-!
# Base58

A byte sequence is read as one large number and written in radix 58, without the letters and
digits that are easily confused. Zero bytes at the front become ones at the front, one for one.

* `encode`, `decode`: the text of a byte sequence and back;
* `encodeChars`, `decodeChars`: the same on characters.
-/

namespace SpendScript.Base58

/-- The 58 digits in the order of their values. -/
def alphabet : List Char := "123456789ABCDEFGHJKLMNPQRSTUVWXYZabcdefghijkmnopqrstuvwxyz".toList

def digit (n : Nat) : Char := alphabet.getD n '1'

def digitValue? (c : Char) : Option Nat := alphabet.idxOf? c

/-- As many digits as `n` bytes can need, and one to spare. -/
def digitCapacity (n : Nat) : Nat := n * 138 / 100 + 1

/-- As many bytes as `n` digits can need, and one to spare. -/
def byteCapacity (n : Nat) : Nat := n * 733 / 1000 + 1

/-- The significant digits of a full buffer, most significant first. -/
def significant (buffer : List Nat) : List Nat := buffer.reverse.dropWhile (· == 0)

def encodeChars (bs : Bytes) : List Char :=
  let zeros := bs.takeWhile (· == 0)
  let rest := bs.dropWhile (· == 0)
  let buffer := Radix.convert 256 58 (digitCapacity rest.length) (rest.map UInt8.toNat)
  zeros.map (fun _ => '1') ++ (significant buffer).map digit

def decodeChars (cs : List Char) : Option Bytes := do
  let ones := cs.takeWhile (· == '1')
  let digits ← (cs.dropWhile (· == '1')).mapM digitValue?
  let buffer := Radix.convert 58 256 (byteCapacity digits.length) digits
  return ones.map (fun _ => 0) ++ (significant buffer).map UInt8.ofNat

def encode (bs : Bytes) : String := String.ofList (encodeChars bs)

def decode (text : String) : Option Bytes := decodeChars text.toList

end SpendScript.Base58
