/-
The AES instructions of the aarch64 interpreter (`src/vcpu/interp/crypto.rs`).

A vector register is the sixteen bytes it is read into: `s c r` is byte `r + 4 * c`, row `r` of
column `c`. A table is its sixteen rows, each a number with the first byte on top.
-/
import Mathlib

namespace NixVm.Crypto

abbrev Byte := BitVec 8
abbrev Block := Fin 4 → Fin 4 → Byte

def aesSbox : List Nat :=
   [0x637c777bf26b6fc53001672bfed7ab76, 0xca82c97dfa5947f0add4a2af9ca472c0,
    0xb7fd9326363ff7cc34a5e5f171d83115, 0x04c723c31896059a071280e2eb27b275,
    0x09832c1a1b6e5aa0523bd6b329e32f84, 0x53d100ed20fcb15b6acbbe394a4c58cf,
    0xd0efaafb434d338545f9027f503c9fa8, 0x51a3408f929d38f5bcb6da2110fff3d2,
    0xcd0c13ec5f974417c4a77e3d645d1973, 0x60814fdc222a908846eeb814de5e0bdb,
    0xe0323a0a4906245cc2d3ac629195e479, 0xe7c8376d8dd54ea96c56f4ea657aae08,
    0xba78252e1ca6b4c6e8dd741f4bbd8b8a, 0x703eb5664803f60e613557b986c11d9e,
    0xe1f8981169d98e949b1e87e9ce5528df, 0x8ca1890dbfe6426841992d0fb054bb16]

def aesInvSbox : List Nat :=
   [0x52096ad53036a538bf40a39e81f3d7fb, 0x7ce339829b2fff87348e4344c4dee9cb,
    0x547b9432a6c2233dee4c950b42fac34e, 0x082ea16628d924b2765ba2496d8bd125,
    0x72f8f66486689816d4a45ccc5d65b692, 0x6c704850fdedb9da5e154657a78d9d84,
    0x90d8ab008cbcd30af7e45805b8b34506, 0xd02c1e8fca3f0f02c1afbd0301138a6b,
    0x3a9111414f67dcea97f2cfcef0b4e673, 0x96ac7422e7ad3585e2f937e81c75df6e,
    0x47f11a711d29c5896fb7620eaa18be1b, 0xfc563e4bc6d279209adbc0fe78cd5af4,
    0x1fdda8338807c731b11210592780ec5f, 0x60517fa919b54a0d2de57a9f93c99cef,
    0xa0e03b4dae2af5b0c8ebbb3c83539961, 0x172b047eba77d626e169146355210c7d]

def lookup (table : List Nat) (b : Byte) : Byte :=
  .ofNat 8 (table.getD (b.toNat / 16) 0 >>> (8 * (15 - b.toNat % 16)))

def xor (s k : Block) : Block := fun c r => s c r ^^^ k c r

def aesShiftRows (s : Block) : Block := fun c r => s (c + r) r

/-- The source writes column `c` of the state to `c + r`. -/
def aesInvShiftRows (s : Block) : Block := fun c r => s (c - r) r

def aesRound (vd vn : Block) (encrypt : Bool) : Block :=
  let state := xor vd vn
  let shifted := if encrypt then aesShiftRows state else aesInvShiftRows state
  fun c r => lookup (if encrypt then aesSbox else aesInvSbox) (shifted c r)

def gfMulLoop : Nat → Byte → Byte → Byte → Byte
  | 0, _, _, p => p
  | n + 1, a, b, p =>
    let p := if b &&& 1 ≠ 0 then p ^^^ a else p
    let hi := a &&& 0x80
    let a := a <<< 1
    gfMulLoop n (if hi ≠ 0 then a ^^^ 0x1b else a) (b >>> 1) p

def gfMul (a b : Byte) : Byte := gfMulLoop 8 a b 0

def aesMixColumn (a : Fin 4 → Byte) : Fin 4 → Byte :=
  ![gfMul 2 (a 0) ^^^ gfMul 3 (a 1) ^^^ a 2 ^^^ a 3,
    a 0 ^^^ gfMul 2 (a 1) ^^^ gfMul 3 (a 2) ^^^ a 3,
    a 0 ^^^ a 1 ^^^ gfMul 2 (a 2) ^^^ gfMul 3 (a 3),
    gfMul 3 (a 0) ^^^ a 1 ^^^ a 2 ^^^ gfMul 2 (a 3)]

def aesInvMixColumn (a : Fin 4 → Byte) : Fin 4 → Byte :=
  ![gfMul 14 (a 0) ^^^ gfMul 11 (a 1) ^^^ gfMul 13 (a 2) ^^^ gfMul 9 (a 3),
    gfMul 9 (a 0) ^^^ gfMul 14 (a 1) ^^^ gfMul 11 (a 2) ^^^ gfMul 13 (a 3),
    gfMul 13 (a 0) ^^^ gfMul 9 (a 1) ^^^ gfMul 14 (a 2) ^^^ gfMul 11 (a 3),
    gfMul 11 (a 0) ^^^ gfMul 13 (a 1) ^^^ gfMul 9 (a 2) ^^^ gfMul 14 (a 3)]

def aesMixColumns (vn : Block) (forward : Bool) : Block :=
  fun c => if forward then aesMixColumn (vn c) else aesInvMixColumn (vn c)

end NixVm.Crypto
