import SpendScript.Bytes

/-!
# Opcodes

The opcodes of the script language, each with its byte and its name. Bytes from 1 to 75 are no
opcodes: they announce that many bytes of data.

* `isPushSize`: the bytes that announce data;
* `Immediate`: the numbers with an opcode of their own;
* `Opcode`, `Opcode.byte`, `Opcode.name`;
* `Opcode.all`, `Opcode.ofByte?`.
-/

namespace SpendScript

/-- Whether a byte announces that many bytes of data. -/
def isPushSize (b : UInt8) : Bool := 1 ≤ b && b ≤ 75

/-- The numbers that an opcode of their own pushes. -/
abbrev Immediate : Type := {v : Int // -1 ≤ v ∧ v ≤ 16}

namespace Immediate

def ofInt? (v : Int) : Option Immediate := if h : -1 ≤ v ∧ v ≤ 16 then some ⟨v, h⟩ else none

def all : List Immediate := (List.range 18).filterMap fun (n : Nat) => ofInt? ((n : Int) - 1)

/-- Zero stands apart; the others count from a byte that is itself left out. -/
def byte (v : Immediate) : UInt8 := if v.val = 0 then 0 else UInt8.ofNat (0x50 + v.val).toNat

def name (v : Immediate) : String := if v.val = -1 then "OP_1NEGATE" else s!"OP_{v.val}"

/-- Whether a byte lies in the range of the non-zero immediates, the one left out included. -/
def isByte (b : UInt8) : Bool := 0x4f ≤ b && b ≤ 0x60

end Immediate

inductive UnaryFunction
  | succ
  | pred
  | negate
  | isZero
  | isNonzero
  deriving DecidableEq, Repr

/-- Functions of two numbers, the deeper one first. -/
inductive BinaryFunction
  | add
  | sub
  | equal
  | less
  | greater
  | min
  | max
  deriving DecidableEq, Repr

inductive DigestFunction
  | ripemd160
  | sha256
  | hash160
  | hash256
  deriving DecidableEq, Repr

inductive Shuffle
  | dropTwo
  | dupTwo
  | depth
  | drop
  | dup
  | nip
  | over
  | swap
  | size
  deriving DecidableEq, Repr

inductive Opcode
  | immediate (value : Immediate)
  | nop
  | verify
  | unspendable
  | shuffle (move : Shuffle)
  | equal
  | equalVerify
  | unary (f : UnaryFunction)
  | binary (f : BinaryFunction)
  | numEqualVerify
  | digest (f : DigestFunction)
  | codeSeparator
  | checkSig
  | checkSigVerify
  | checkMultiSig
  | checkMultiSigVerify
  deriving DecidableEq, Repr

namespace Opcode

def byte : Opcode → UInt8
  | .immediate value => value.byte
  | .nop => 0x61
  | .verify => 0x69
  | .unspendable => 0x6a
  | .shuffle .dropTwo => 0x6d
  | .shuffle .dupTwo => 0x6e
  | .shuffle .depth => 0x74
  | .shuffle .drop => 0x75
  | .shuffle .dup => 0x76
  | .shuffle .nip => 0x77
  | .shuffle .over => 0x78
  | .shuffle .swap => 0x7c
  | .shuffle .size => 0x82
  | .equal => 0x87
  | .equalVerify => 0x88
  | .unary .succ => 0x8b
  | .unary .pred => 0x8c
  | .unary .negate => 0x8f
  | .unary .isZero => 0x91
  | .unary .isNonzero => 0x92
  | .binary .add => 0x93
  | .binary .sub => 0x94
  | .binary .equal => 0x9c
  | .numEqualVerify => 0x9d
  | .binary .less => 0x9f
  | .binary .greater => 0xa0
  | .binary .min => 0xa3
  | .binary .max => 0xa4
  | .digest .ripemd160 => 0xa6
  | .digest .sha256 => 0xa8
  | .digest .hash160 => 0xa9
  | .digest .hash256 => 0xaa
  | .codeSeparator => 0xab
  | .checkSig => 0xac
  | .checkSigVerify => 0xad
  | .checkMultiSig => 0xae
  | .checkMultiSigVerify => 0xaf

def name : Opcode → String
  | .immediate value => value.name
  | .nop => "OP_NOP"
  | .verify => "OP_VERIFY"
  | .unspendable => "OP_RETURN"
  | .shuffle .dropTwo => "OP_2DROP"
  | .shuffle .dupTwo => "OP_2DUP"
  | .shuffle .depth => "OP_DEPTH"
  | .shuffle .drop => "OP_DROP"
  | .shuffle .dup => "OP_DUP"
  | .shuffle .nip => "OP_NIP"
  | .shuffle .over => "OP_OVER"
  | .shuffle .swap => "OP_SWAP"
  | .shuffle .size => "OP_SIZE"
  | .equal => "OP_EQUAL"
  | .equalVerify => "OP_EQUALVERIFY"
  | .unary .succ => "OP_1ADD"
  | .unary .pred => "OP_1SUB"
  | .unary .negate => "OP_NEGATE"
  | .unary .isZero => "OP_NOT"
  | .unary .isNonzero => "OP_0NOTEQUAL"
  | .binary .add => "OP_ADD"
  | .binary .sub => "OP_SUB"
  | .binary .equal => "OP_NUMEQUAL"
  | .numEqualVerify => "OP_NUMEQUALVERIFY"
  | .binary .less => "OP_LESSTHAN"
  | .binary .greater => "OP_GREATERTHAN"
  | .binary .min => "OP_MIN"
  | .binary .max => "OP_MAX"
  | .digest .ripemd160 => "OP_RIPEMD160"
  | .digest .sha256 => "OP_SHA256"
  | .digest .hash160 => "OP_HASH160"
  | .digest .hash256 => "OP_HASH256"
  | .codeSeparator => "OP_CODESEPARATOR"
  | .checkSig => "OP_CHECKSIG"
  | .checkSigVerify => "OP_CHECKSIGVERIFY"
  | .checkMultiSig => "OP_CHECKMULTISIG"
  | .checkMultiSigVerify => "OP_CHECKMULTISIGVERIFY"

/-- Every opcode, in the order of the bytes. -/
def all : List Opcode :=
  Immediate.all.map .immediate ++
    [.nop, .verify, .unspendable, .shuffle .dropTwo, .shuffle .dupTwo, .shuffle .depth,
     .shuffle .drop, .shuffle .dup, .shuffle .nip, .shuffle .over, .shuffle .swap, .shuffle .size,
     .equal, .equalVerify, .unary .succ, .unary .pred, .unary .negate, .unary .isZero,
     .unary .isNonzero, .binary .add, .binary .sub, .binary .equal, .numEqualVerify, .binary .less,
     .binary .greater, .binary .min, .binary .max, .digest .ripemd160, .digest .sha256,
     .digest .hash160, .digest .hash256, .codeSeparator, .checkSig, .checkSigVerify,
     .checkMultiSig, .checkMultiSigVerify]

def ofByte? (b : UInt8) : Option Opcode := all.find? fun op => op.byte == b

end Opcode

end SpendScript
