/-
Per-process x86-64 page tables and the software walker (`src/vcpu/pagetable.rs`).

An address space is the physical address of its PML4. Four levels of 512-entry tables lie in the
pool beside the data they map, and every entry is read from and written to the pool's bytes.
-/
import NixVm.Vcpu.Phys

namespace NixVm

structure Prot where
  bits : BitVec 8
  deriving DecidableEq, Repr

namespace Prot

def none : Prot := ⟨0⟩
def read : Prot := ⟨1⟩
def write : Prot := ⟨2⟩
def exec : Prot := ⟨4⟩
def rw : Prot := ⟨read.bits ||| write.bits⟩
def rx : Prot := ⟨read.bits ||| exec.bits⟩

def contains (p q : Prot) : Bool := p.bits &&& q.bits == q.bits

/-- This protection with `write` removed. -/
def readOnly (p : Prot) : Prot := ⟨p.bits &&& ~~~write.bits⟩

end Prot

namespace Pte

def P : BitVec 64 := 0x1#64
def RW : BitVec 64 := 0x2#64
def US : BitVec 64 := 0x4#64
def NX : BitVec 64 := 0x8000000000000000#64
def addrMask : BitVec 64 := 0x000ffffffffff000#64
def interior : BitVec 64 := P ||| RW ||| US

def present (e : BitVec 64) : Bool := e &&& P != 0
def writable (e : BitVec 64) : Bool := e &&& RW != 0
def user (e : BitVec 64) : Bool := e &&& US != 0
def noExec (e : BitVec 64) : Bool := e &&& NX != 0

def addr (e : BitVec 64) : Nat := (e &&& addrMask).toNat

/-- An entry for the frame at `pa`. -/
def make (pa : Nat) (flags : BitVec 64) : BitVec 64 := BitVec.ofNat 64 pa ||| flags

end Pte

def tableIndex (vaddr level : Nat) : Nat := (vaddr >>> (12 + 9 * (level - 1))) &&& 0x1ff

def leafFlags (prot : Prot) (supervisor : Bool) : BitVec 64 :=
  Pte.P ||| (if supervisor then 0 else Pte.US)
    ||| (if prot.contains .write then Pte.RW else 0)
    ||| (if prot.contains .exec then 0 else Pte.NX)

/-- The protection a present leaf enforces.  A present page is always readable. -/
def leafProt (e : BitVec 64) : Prot :=
  ⟨Prot.read.bits ||| (if Pte.writable e then Prot.write.bits else 0)
    ||| (if Pte.noExec e then 0 else Prot.exec.bits)⟩

structure Translation where
  paddr : Nat
  prot : Prot
  supervisor : Bool

inductive MapErr
  | retired
  | misaligned (addr : Nat)
  | outOfFrames
  deriving DecidableEq

/-- A 4-level page-table tree, by the physical address of its PML4. -/
structure AddrSpace where
  pml4 : Nat
  deriving DecidableEq

def entry (m : PhysMem) (table idx : Nat) : BitVec 64 := m.readU64 (table + idx * 8)

/-- The loop of `clone_subtree` over one table. `sub` copies a sub-table, leaves are shared
read-only, and `false` is running out of frames. -/
def cloneEntries (sub : Nat → Nat → Pool → Bool × Pool) (leaf : Bool) (parent child : Nat) :
    List Nat → Pool → Bool × Pool
  | [], pl => (true, pl)
  | idx :: rest, pl =>
    let e := entry pl.phys parent idx
    if !Pte.present e then cloneEntries sub leaf parent child rest pl
    else if leaf then
      let pl := (pl.incref (Pte.addr e)).store (child + idx * 8) (e &&& ~~~Pte.RW)
      cloneEntries sub leaf parent child rest pl
    else
      match pl.alloc with
      | none => (false, pl)
      | some (childSub, pl) =>
        let pl := pl.store (child + idx * 8) (Pte.make childSub Pte.interior)
        match sub (Pte.addr e) childSub pl with
        | (false, pl) => (false, pl)
        | (true, pl) => cloneEntries sub leaf parent child rest pl

/-- Copy the table at `parent` into the fresh table at `child`. -/
def cloneSubtree : Nat → Nat → Nat → Pool → Bool × Pool
  | 0, _, _, pl => (true, pl)
  | level + 1, parent, child, pl =>
    cloneEntries (cloneSubtree level) (level == 0) parent child (List.range 512) pl

def clearLeafWrite : Nat → Nat → PhysMem → PhysMem
  | 0, _, m => m
  | level + 1, table, m =>
    (List.range 512).foldl (fun m idx =>
      let e := entry m table idx
      if !Pte.present e then m
      else if level = 0 then
        if Pte.writable e then m.writeU64Atomic (table + idx * 8) (e &&& ~~~Pte.RW) else m
      else clearLeafWrite level (Pte.addr e) m) m

def freeSubtree : Nat → Nat → Pool → Pool
  | 0, _, pl => pl
  | level + 1, table, pl =>
    (List.range 512).foldl (fun pl idx =>
      let e := entry pl.phys table idx
      if !Pte.present e then pl
      else if level = 0 then pl.free (Pte.addr e)
      else (freeSubtree level (Pte.addr e) pl).free (Pte.addr e)) pl

namespace AddrSpace

def new (pl : Pool) : Option (AddrSpace × Pool) :=
  match pl.alloc with
  | none => none
  | some (pml4, pl) => some (⟨pml4⟩, pl)

def retired : AddrSpace := ⟨0⟩

def nextOrAlloc (table idx : Nat) (pl : Pool) : Option (Nat × Pool) :=
  let e := entry pl.phys table idx
  if Pte.present e then some (Pte.addr e, pl)
  else
    match pl.alloc with
    | none => none
    | some (child, pl) => some (child, pl.store (table + idx * 8) (Pte.make child Pte.interior))

def next (m : PhysMem) (table idx : Nat) : Option Nat :=
  let e := entry m table idx
  if Pte.present e then some (Pte.addr e) else none

/-- Install `vaddr → framePa`, giving back the frame of the leaf this overwrote. -/
def map (s : AddrSpace) (vaddr framePa : Nat) (prot : Prot) (supervisor : Bool) (pl : Pool) :
    Except MapErr (Option Nat) × Pool :=
  if s.pml4 = 0 then (.error .retired, pl)
  else if vaddr % 4096 ≠ 0 then (.error (.misaligned vaddr), pl)
  else if framePa % 4096 ≠ 0 then (.error (.misaligned framePa), pl)
  else
    match nextOrAlloc s.pml4 (tableIndex vaddr 4) pl with
    | none => (.error .outOfFrames, pl)
    | some (pdpt, pl) =>
      match nextOrAlloc pdpt (tableIndex vaddr 3) pl with
      | none => (.error .outOfFrames, pl)
      | some (pd, pl) =>
        match nextOrAlloc pd (tableIndex vaddr 2) pl with
        | none => (.error .outOfFrames, pl)
        | some (pt, pl) =>
          let leafPa := pt + tableIndex vaddr 1 * 8
          let old := pl.phys.readU64 leafPa
          let oldFrame := if Pte.present old then some (Pte.addr old) else none
          (.ok oldFrame, pl.store leafPa (Pte.make framePa (leafFlags prot supervisor)))

def leafPtePa (s : AddrSpace) (m : PhysMem) (vaddr : Nat) : Option Nat :=
  match next m s.pml4 (tableIndex vaddr 4) with
  | none => none
  | some pdpt =>
    match next m pdpt (tableIndex vaddr 3) with
    | none => none
    | some pd =>
      match next m pd (tableIndex vaddr 2) with
      | none => none
      | some pt => some (pt + tableIndex vaddr 1 * 8)

def translate (s : AddrSpace) (vaddr : Nat) (m : PhysMem) : Option Translation :=
  match s.leafPtePa m vaddr with
  | none => none
  | some leafPa =>
    let e := m.readU64 leafPa
    if !Pte.present e then none
    else some { paddr := Pte.addr e ||| vaddr % 4096, prot := leafProt e,
                supervisor := !Pte.user e }

/-- Rewrite the permission bits of an existing leaf; whether there was one. -/
def protect (s : AddrSpace) (vaddr : Nat) (prot : Prot) (supervisor : Bool) (pl : Pool) :
    Bool × Pool :=
  match s.leafPtePa pl.phys vaddr with
  | none => (false, pl)
  | some leafPa =>
    let e := pl.phys.readU64 leafPa
    if !Pte.present e then (false, pl)
    else (true, pl.store leafPa (Pte.make (Pte.addr e) (leafFlags prot supervisor)))

/-- Whether every entry of the table at `table` is zero. -/
def tableIsEmpty (m : PhysMem) (table : Nat) : Bool :=
  (List.range 512).all fun i => m.readU64 (table + i * 8) == 0

/-- Remove the leaf at `vaddr` and the tables this empties. Its reference passes to the caller. -/
def unmap (s : AddrSpace) (vaddr : Nat) (pl : Pool) : Option Nat × Pool :=
  match next pl.phys s.pml4 (tableIndex vaddr 4) with
  | none => (none, pl)
  | some pdpt =>
    match next pl.phys pdpt (tableIndex vaddr 3) with
    | none => (none, pl)
    | some pd =>
      match next pl.phys pd (tableIndex vaddr 2) with
      | none => (none, pl)
      | some pt =>
        let leafPa := pt + tableIndex vaddr 1 * 8
        let e := pl.phys.readU64 leafPa
        if !Pte.present e then (none, pl)
        else
          let pl := pl.store leafPa 0#64
          if !tableIsEmpty pl.phys pt then (some (Pte.addr e), pl)
          else
            let pl := (pl.store (pd + tableIndex vaddr 2 * 8) 0#64).free pt
            if !tableIsEmpty pl.phys pd then (some (Pte.addr e), pl)
            else
              let pl := (pl.store (pdpt + tableIndex vaddr 3 * 8) 0#64).free pd
              if !tableIsEmpty pl.phys pdpt then (some (Pte.addr e), pl)
              else
                (some (Pte.addr e), (pl.store (s.pml4 + tableIndex vaddr 4 * 8) 0#64).free pdpt)

def destroy (s : AddrSpace) (pl : Pool) : Pool :=
  if s.pml4 = 0 then pl else (freeSubtree 4 s.pml4 pl).free s.pml4

/-- A copy-on-write child, or `none` with everything the copy did undone. -/
def forkCow (s : AddrSpace) (pl : Pool) : Option AddrSpace × Pool :=
  match pl.alloc with
  | none => (none, pl)
  | some (childPml4, pl) =>
    match cloneSubtree 4 s.pml4 childPml4 pl with
    | (false, pl) => (none, destroy ⟨childPml4⟩ pl)
    | (true, pl) => (some ⟨childPml4⟩, { pl with phys := clearLeafWrite 4 s.pml4 pl.phys })

end AddrSpace

end NixVm
