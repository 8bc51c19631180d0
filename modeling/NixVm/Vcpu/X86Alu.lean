/-
Arithmetic of the x86 interpreter (`src/vcpu/interp_x86.rs`: `group2`, `shift_rotate`).

An operand is a `u64` of which `width` bits count: 8, 16, 32 or 64.
-/
import Mathlib

namespace NixVm.X86

structure Flags where
  cf : Bool
  pf : Bool
  af : Bool
  zf : Bool
  sf : Bool
  of : Bool

def maskW (v : BitVec 64) (width : Nat) : BitVec 64 := (v.setWidth width).setWidth 64

def signBit (v : BitVec 64) (width : Nat) : Bool := v.getLsbD (width - 1)

def parity (v : BitVec 64) : Bool :=
  ((List.range 8).filter fun i => v.getLsbD i).length % 2 = 0

def signExtendW (v : BitVec 64) (width : Nat) : BitVec 64 :=
  (v <<< (64 - width)).sshiftRight (64 - width)

def Flags.szp (f : Flags) (r : BitVec 64) (width : Nat) : Flags :=
  { f with zf := maskW r width = 0#64, sf := signBit r width, pf := parity r }

/-- The `/r` of group 2; `SAL` is `SHL`. -/
inductive Shift
  | rol | ror | rcl | rcr | shl | shr | sar

/-- The ring of `n` bits turned left by `k`. -/
def turnLeft (v : BitVec 128) (n k : Nat) : BitVec 128 :=
  (v <<< k ||| v >>> (n - k)) &&& (1#128 <<< n - 1#128)

def turnRight (v : BitVec 128) (n k : Nat) : BitVec 128 :=
  (v >>> k ||| v <<< (n - k)) &&& (1#128 <<< n - 1#128)

def shiftRotate (ext : Shift) (a : BitVec 64) (cnt width : Nat) (f : Flags) :
    BitVec 64 × Flags :=
  let a := maskW a width
  let ofDown (r : BitVec 64) := signBit r width ^^ signBit (r <<< 1) width
  match ext with
  | .rol =>
    let k := cnt % width
    let r := if k = 0 then a else maskW (a <<< k ||| a >>> (width - k)) width
    let cf := r.getLsbD 0
    (r, { f with cf := cf, of := signBit r width ^^ cf })
  | .ror =>
    let k := cnt % width
    let r := if k = 0 then a else maskW (a >>> k ||| a <<< (width - k)) width
    (r, { f with cf := signBit r width, of := ofDown r })
  | .rcl | .rcr =>
    let left := ext matches .rcl
    let n := width + 1
    let k := if width = 8 then cnt % 9 else if width = 16 then cnt % 17 else cnt
    if k = 0 then (a, { f with of := if left then signBit a width ^^ f.cf else ofDown a })
    else
      let v := (BitVec.ofBool f.cf).setWidth 128 <<< width ||| a.setWidth 128
      let rot := if left then turnLeft v n k else turnRight v n k
      let r := maskW (rot.setWidth 64) width
      let cf := rot.getLsbD width
      (r, { f with cf := cf, of := if left then signBit r width ^^ cf else ofDown r })
  | .shl =>
    let wide := a.setWidth 128 <<< cnt
    let r := maskW (wide.setWidth 64) width
    let cf := wide.getLsbD width
    (r, { f with cf := cf, of := signBit r width ^^ cf, af := false }.szp r width)
  | .shr =>
    let r := if 64 ≤ cnt then 0#64 else a >>> cnt
    let cf := cnt ≤ 64 && a.getLsbD (cnt - 1)
    (r, { f with cf := cf, of := signBit a width, af := false }.szp r width)
  | .sar =>
    let s := signExtendW a width
    let r := maskW (s.sshiftRight (min cnt 63)) width
    let cf := (s.sshiftRight (min (cnt - 1) 63)).getLsbD 0
    (r, { f with cf := cf, of := false, af := false }.szp r width)

/-- What is written back to the operand `a`, and the flags. -/
def group2 (ext : Shift) (a : BitVec 64) (cnt : BitVec 8) (width : Nat) (f : Flags) :
    BitVec 64 × Flags :=
  let masked := (cnt &&& if width = 64 then 63#8 else 31#8).toNat
  if masked = 0 then (a, f) else shiftRotate ext a masked width f

end NixVm.X86
