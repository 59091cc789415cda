import SpendScript.Base58
import SpendScript.Primitives

/-!
# Addresses

A payload followed by the first four bytes of its digest is protected against misreading; in Base58
this is the form of an address. An address names the hash of a key under a version.

* `Base58Check.encodeBy`, `Base58Check.decodeBy`: texts that carry a checksum by some digest;
* `Base58Check.encode`, `Base58Check.decode`: texts that carry the checksum by the double digest;
* `Address.ofHash160`, `Address.ofPublicKey`.
-/

namespace SpendScript

namespace Base58Check

section

variable (digest : Bytes → Hash256)

def checksumBy (payload : Bytes) : Bytes := (digest payload).bytes.take 4

/-- The Base58 text of a payload and its checksum. -/
def encodeBy (payload : Bytes) : String := Base58.encode (payload ++ checksumBy digest payload)

/-- The payload of a text whose last four bytes are the checksum of the others. -/
def decodeBy (text : String) : Option Bytes := do
  let data ← Base58.decode text
  if data.length < 4 then none
  else
    let payload := data.take (data.length - 4)
    if data.drop (data.length - 4) = checksumBy digest payload then some payload else none

end

def encode (p : Primitives) (payload : Bytes) : String := encodeBy p.hash256 payload

def decode (p : Primitives) (text : String) : Option Bytes := decodeBy p.hash256 text

end Base58Check

namespace Address

/-- The version of addresses of key hashes on the main network. -/
def mainVersion : UInt8 := 0

/-- The address of a key hash whose checksum is by some digest. -/
def ofHash160By (digest : Bytes → Hash256) (version : UInt8) (hash : Hash160) : String :=
  Base58Check.encodeBy digest (version :: hash.bytes)

variable (p : Primitives)

def ofHash160 (version : UInt8) (hash : Hash160) : String := ofHash160By p.hash256 version hash

def ofPublicKey (version : UInt8) (key : Bytes) : String := ofHash160 p version (p.hash160 key)

end Address

end SpendScript
