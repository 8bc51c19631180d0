/-
Physical guest RAM and the 4 KiB frame allocator (`src/vcpu/phys.rs`).

`PhysMem` is a run of bytes from physical address 0. Its accessors assert their range; the
invariant of `Proofs/Pool.lean` keeps it inside the pool, so here they are total.

`FrameAllocator` keeps a refcount for every frame and a stack of free frames. The stack is a list
whose head is the end of the source's `Vec`. A refcount is a `u32`, with its largest value set
aside to mark a frame as pinned; `incref` saturates into that value, as the source does.
-/
import NixVm.Lib.Bytes

namespace NixVm

abbrev Byte := BitVec 8

def nextMultipleOf (v k : Nat) : Nat := (v + k - 1) / k * k

/-- A contiguous pool of guest-physical RAM, `[0, size)`. -/
structure PhysMem where
  byte : Bytes.Mem
  size : Nat

namespace PhysMem

/-- A zero-filled pool.  The backing region is a whole number of 16 KiB host pages. -/
def new (size : Nat) : PhysMem where
  byte := fun _ => 0
  size := max (nextMultipleOf (max (nextMultipleOf size 4096) 4096) 16384) 16384

def nframes (m : PhysMem) : Nat := m.size / 4096

def read (m : PhysMem) (pa n : Nat) : List Byte := Bytes.read m.byte pa n

def write (m : PhysMem) (pa : Nat) (bytes : List Byte) : PhysMem :=
  { m with byte := Bytes.write m.byte pa bytes }

def readU64 (m : PhysMem) (pa : Nat) : BitVec 64 := Bytes.readWord m.byte pa

def writeU64Atomic (m : PhysMem) (pa : Nat) (v : BitVec 64) : PhysMem :=
  { m with byte := Bytes.writeWord m.byte pa v }

def zeroFrame (m : PhysMem) (pa : Nat) : PhysMem :=
  { m with byte := Bytes.fill m.byte pa 4096 0 }

def copyFrame (m : PhysMem) (dst src : Nat) : PhysMem :=
  { m with byte := Bytes.store m.byte dst 4096 fun i => m.byte (src + i) }

end PhysMem

/-- The refcount of a frame that is reserved for good, `u32::MAX`. -/
def pinned : Nat := 4294967295

structure FrameAllocator where
  /-- How many frames the pool has. -/
  nframes : Nat
  /-- 0 is free, `pinned` is reserved, anything between is the number of owners. -/
  refcount : Nat → Nat
  /-- Free frame numbers, the next one to hand out first. -/
  freeList : List Nat
  /-- How many frames are live. -/
  allocated : Nat
  /-- Frames ordinary allocations leave free. -/
  reserve : Nat
  /-- Whether allocations may dip into `reserve`. -/
  useReserve : Bool

namespace FrameAllocator

/-- Frame 0 is the guard; every other frame starts free, as far as its number fits `u32`. -/
def new (nframes : Nat) : FrameAllocator where
  nframes := nframes
  refcount := fun f => if f = 0 then pinned else 0
  freeList := List.range' 1 (nframes % 4294967296 - 1)
  allocated := 0
  reserve := 0
  useReserve := false

/-- The frame number of `pa`, if it is frame-aligned and in the pool. -/
def frameOf (fa : FrameAllocator) (pa : Nat) : Option Nat :=
  if pa % 4096 ≠ 0 then none
  else if pa / 4096 < fa.nframes then some (pa / 4096) else none

def setReserve (fa : FrameAllocator) (frames : Nat) : FrameAllocator :=
  { fa with reserve := frames }

def setUseReserve (fa : FrameAllocator) (on : Bool) : FrameAllocator :=
  { fa with useReserve := on }

/-- The source's `refcount`: 0 for an address that names no frame. -/
def refcountAt (fa : FrameAllocator) (pa : Nat) : Nat :=
  match fa.frameOf pa with
  | none => 0
  | some f => fa.refcount f

def setRefcount (fa : FrameAllocator) (f rc : Nat) : FrameAllocator :=
  { fa with refcount := fun g => if g = f then rc else fa.refcount g }

/-- Add a reference.  Nothing happens to a pinned frame, or at a bad address. -/
def incref (fa : FrameAllocator) (pa : Nat) : FrameAllocator :=
  match fa.frameOf pa with
  | none => fa
  | some f =>
    if fa.refcount f = pinned then fa
    else fa.setRefcount f (min (fa.refcount f + 1) pinned)

/-- Drop a reference; the last one returns the frame to the free list. -/
def decref (fa : FrameAllocator) (pa : Nat) : FrameAllocator :=
  match fa.frameOf pa with
  | none => fa
  | some f =>
    if fa.refcount f = pinned then fa
    else if fa.refcount f = 0 then fa
    else
      let fa' := fa.setRefcount f (fa.refcount f - 1)
      if fa.refcount f = 1 then
        { fa' with allocated := fa.allocated - 1, freeList := f :: fa.freeList }
      else fa'

def free (fa : FrameAllocator) (pa : Nat) : FrameAllocator := fa.decref pa

def pin (fa : FrameAllocator) (f : Nat) : FrameAllocator :=
  let fa' := if fa.refcount f ≠ pinned ∧ 1 ≤ fa.refcount f then
      { fa with allocated := fa.allocated - 1 } else fa
  fa'.setRefcount f pinned

/-- `reserve`: pin the frames of `[pa, pa + len)`. `none` is the panic past the end of the pool. -/
def reserveRange (fa : FrameAllocator) (pa len : Nat) : Option FrameAllocator :=
  if len = 0 then some fa
  else
    let first := pa / 4096
    let stop := (pa + len + 4095) / 4096
    if stop ≤ fa.nframes then
      let fa' := (List.range' first (stop - first)).foldl pin fa
      some { fa' with freeList := fa'.freeList.filter fun f => fa'.refcount f ≠ pinned }
    else none

end FrameAllocator

structure Pool where
  fa : FrameAllocator
  phys : PhysMem

namespace Pool

/-- Take a free frame, zeroed and with refcount 1, as far as ordinary allocations may. -/
def alloc (pl : Pool) : Option (Nat × Pool) :=
  if !pl.fa.useReserve && pl.fa.freeList.length ≤ pl.fa.reserve then none
  else
    match pl.fa.freeList with
    | [] => none
    | f :: rest =>
      let fa := { pl.fa.setRefcount f 1 with
        freeList := rest, allocated := pl.fa.allocated + 1 }
      some (f * 4096, ⟨fa, pl.phys.zeroFrame (f * 4096)⟩)

def free (pl : Pool) (pa : Nat) : Pool := { pl with fa := pl.fa.free pa }

def incref (pl : Pool) (pa : Nat) : Pool := { pl with fa := pl.fa.incref pa }

def store (pl : Pool) (pa : Nat) (v : BitVec 64) : Pool :=
  { pl with phys := pl.phys.writeU64Atomic pa v }

def setUseReserve (pl : Pool) (on : Bool) : Pool := { pl with fa := pl.fa.setUseReserve on }

end Pool

end NixVm
