import SpendScript.Bytes

/-!
# Hexadecimal text

Each byte is written as two lowercase digits, the high half first. Reading takes digits of either
case and refuses everything else: an odd length, blanks, signs and marks.

* `encode`, `decode`: on text; `encodeChars`, `decodeChars`: on its characters.
-/

namespace SpendScript.Hex

def digits (b : UInt8) : List Char := [Nat.digitChar (b.toNat / 16), Nat.digitChar (b.toNat % 16)]

def digitValue? (c : Char) : Option Nat :=
  if '0' ≤ c ∧ c ≤ '9' then some (c.toNat - '0'.toNat)
  else if 'a' ≤ c ∧ c ≤ 'f' then some (c.toNat - 'a'.toNat + 10)
  else if 'A' ≤ c ∧ c ≤ 'F' then some (c.toNat - 'A'.toNat + 10)
  else none

def encodeChars (bs : Bytes) : List Char := bs.flatMap digits

def decodeChars : List Char → Option Bytes
  | [] => some []
  | [_] => none
  | high :: low :: rest =>
    match digitValue? high, digitValue? low, decodeChars rest with
    | some h, some l, some bs => some (UInt8.ofNat (16 * h + l) :: bs)
    | _, _, _ => none

/-- Two lowercase digits per byte. -/
def encode (bs : Bytes) : String := String.ofList (encodeChars bs)

def decode (text : String) : Option Bytes := decodeChars text.toList

end SpendScript.Hex
