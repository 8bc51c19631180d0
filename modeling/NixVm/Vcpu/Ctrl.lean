/-
The supervisor control block, shared by every address space (`src/vcpu/ctrl.rs`).

Seven frames at the bottom of the pool hold a GDT, two trampolines, an IDT, a TSS, the vDSO image
and its data page.

The vDSO image is a parameter: nothing in the memory system reads it.
-/
import NixVm.Vcpu.PageTable

namespace NixVm.Ctrl

def identityTop : Nat := 64 * 2 ^ 30

def ctrlGpa : Nat := identityTop - 2 * 2 ^ 20

def gdtOff : Nat := 0x42000
def trampOff : Nat := 0x43000
def faultTrampOff : Nat := 0x44000
def idtOff : Nat := 0x45000
def tssOff : Nat := 0x46000
def kstackOff : Nat := 0x47000
def vdsoOff : Nat := 0x48000
def vvarOff : Nat := 0x49000

def faultTrampVa : Nat := ctrlGpa + faultTrampOff
def tssBase : Nat := ctrlGpa + tssOff
def kstackTop : Nat := ctrlGpa + kstackOff + 0x1000
def kstackPageVa : Nat := ctrlGpa + kstackOff
def vdsoVa : Nat := ctrlGpa + vdsoOff
def vvarVa : Nat := ctrlGpa + vvarOff

def selKcode : Nat := 0x08

def ctrlPhysBase : Nat := 4096
def ctrlFrames : Nat := 7
def vdsoFidx : Nat := 5
def vvarFidx : Nat := 6
def ctrlSize : Nat := ctrlFrames * 4096

structure Page where
  voff : Nat
  prot : Prot

def pages : List Page :=
  [⟨gdtOff, .rw⟩, ⟨trampOff, .rx⟩, ⟨faultTrampOff, .rx⟩, ⟨idtOff, .rw⟩, ⟨tssOff, .rw⟩]

/-- Physical address of the control page with physical index `i`. -/
def framePa (i : Nat) : Nat := ctrlPhysBase + i * 4096

/-- The GDT: null, kernel code and data, user data and code, and the TSS. -/
def gdt : List (BitVec 64) :=
  let base := tssBase
  let limit := 0x67
  let lo := (limit &&& 0xffff) ||| ((base &&& 0xffff) <<< 16)
    ||| (((base >>> 16) &&& 0xff) <<< 32) ||| (0x8b <<< 40)
    ||| (((limit >>> 16) &&& 0xf) <<< 48) ||| (((base >>> 24) &&& 0xff) <<< 56)
  let hi := (base >>> 32) &&& 0xffffffff
  [0, 0x00af9a000000ffff#64, 0x00cf92000000ffff#64, 0x00cff2000000ffff#64,
    0x00affa000000ffff#64, BitVec.ofNat 64 lo, BitVec.ofNat 64 hi]

def faultGate : List (BitVec 64) :=
  let off := faultTrampVa
  let lo := (off &&& 0xffff) ||| (selKcode <<< 16) ||| (0x8e <<< 40)
    ||| (((off >>> 16) &&& 0xffff) <<< 48)
  let hi := (off >>> 32) &&& 0xffffffff
  [BitVec.ofNat 64 lo, BitVec.ofNat 64 hi]

def writeWords (m : PhysMem) (pa : Nat) (ws : List (BitVec 64)) : PhysMem :=
  ws.zipIdx.foldl (fun m w => m.writeU64Atomic (pa + w.2 * 8) w.1) m

def build (image : Nat → Byte) (m : PhysMem) : PhysMem :=
  let m := writeWords m (framePa 0) gdt
  let m := writeWords m (framePa 4 + 4) [BitVec.ofNat 64 kstackTop]
  let m := m.write (framePa 4 + 102) [0x68, 0x00]
  let m := writeWords m (framePa 3 + 14 * 16) faultGate
  let m := m.write (framePa 1) [0xf4, 0x48, 0x0f, 0x07]
  let m := m.write (framePa 2) [0xf4]
  { m with byte := Bytes.store m.byte (framePa vdsoFidx) 4096 image }

/-- Pin the control frames and fill them in. `none`: the pool has no room. -/
def reserveAndBuild (image : Nat → Byte) (pl : Pool) : Option Pool :=
  match pl.fa.reserveRange ctrlPhysBase ctrlSize with
  | none => none
  | some fa => some ⟨fa, build image pl.phys⟩

/-- What `map_into` installs; `supervisor`: only the supervisor may use it. -/
structure Mapping where
  va : Nat
  pa : Nat
  prot : Prot
  supervisor : Bool

/-- The five supervisor pages, then the vDSO and its data page for the user. -/
def mappings : List Mapping :=
  pages.zipIdx.map (fun p => ⟨ctrlGpa + p.1.voff, framePa p.2, p.1.prot, true⟩)
    ++ [⟨vdsoVa, framePa vdsoFidx, .rx, false⟩, ⟨vvarVa, framePa vvarFidx, .read, false⟩]

/-- Map the shared pages into `s`.  Whatever `map` returns is dropped. -/
def mapInto (s : AddrSpace) (pl : Pool) : Pool :=
  mappings.foldl (fun pl c => (s.map c.va c.pa c.prot c.supervisor pl).2) pl

/-- Map a private kernel stack, giving back the frame it replaced. -/
def mapKstack (s : AddrSpace) (pl : Pool) (frame : Nat) : Option Nat × Pool :=
  match s.map kstackPageVa frame .rw true pl with
  | (.ok old, pl) => (old, pl)
  | (.error _, pl) => (none, pl)

end NixVm.Ctrl
