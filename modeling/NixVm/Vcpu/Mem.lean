/-
Guest memory: one process's address space over the shared pool (`src/vcpu/mem.rs`).

A `GuestMemory` is a page-table tree and the tables the kernel keeps beside it, one entry for each
page of the extent `[base, base + size)`. The pool belongs to all spaces at once, so every
operation takes it and returns it.

Operations that can fail return the memory and the pool they leave behind as well as the error:
several of them stop half way, and what they had done by then stays done. A panic is `none`. Sums
the source does not check wrap at 64 bits, as `u64` says.
-/
import NixVm.Vcpu.Ctrl
import NixVm.Vcpu.PageLocks

namespace NixVm

/-- What is left of `n` in 64 bits. -/
def u64 (n : Nat) : Nat := n % 2 ^ 64

def roundUp (v align : Nat) : Nat := u64 ((v + align - 1) / align * align)

def pageOf (addr : Nat) : Nat := addr - addr % 4096

inductive MemError
  | outOfBounds (addr : Nat)
  | unmapped (addr : Nat)
  | protection (addr : Nat) (needed : Prot)
  | host (msg : String)
  deriving DecidableEq

def MemError.exhausted : MemError := .host "frame pool exhausted"

/-- A per-page table (`src/vcpu/pagevec.rs`), with the default wherever nothing was stored. -/
abbrev PageVec (α : Type) := Nat → α

def PageVec.set {α : Type} (v : PageVec α) (p : Nat) (x : α) : PageVec α :=
  fun q => if q = p then x else v q

structure GuestMemory where
  base : Nat
  size : Nat
  space : AddrSpace
  /-- What `map` and `protect` asked for; a leaf may grant less. -/
  prot : PageVec Prot
  mapped : PageVec Bool
  mappedCount : Nat
  fileBacked : PageVec Bool
  /-- Pages aliased, not copied, across a fork. -/
  sharedAnon : PageVec Bool
  forkPolicy : PageVec (Option (BitVec 8))
  locks : PageLocks
  tlbDirty : Bool
  kstackPa : Nat
  shared : Bool

def forkDont : BitVec 8 := 1

/-- Give `s` a fresh kernel stack.  `none` is the panic of an exhausted pool. -/
def installKstack (s : AddrSpace) (pl : Pool) : Option (Nat × Pool) :=
  match pl.alloc with
  | none => none
  | some (frame, pl) =>
    match Ctrl.mapKstack s pl frame with
    | (some old, pl) => some (frame, pl.free old)
    | (none, pl) => some (frame, pl)

namespace GuestMemory

abbrev Outcome := Except MemError Unit × GuestMemory × Pool

/-! ### Construction -/

def empty (base size : Nat) (s : AddrSpace) (kstackPa : Nat) : GuestMemory where
  base := base
  size := size
  space := s
  prot := fun _ => .none
  mapped := fun _ => false
  mappedCount := 0
  fileBacked := fun _ => false
  sharedAnon := fun _ => false
  forkPolicy := fun _ => none
  locks := .default
  tlbDirty := false
  kstackPa := kstackPa
  shared := false

def newSplit (ceiling : Nat) (image : Nat → Byte) (base vsize physBytes : Nat) :
    Option (GuestMemory × Pool) :=
  if base % 4096 ≠ 0 then none
  else
    let size := u64 (nextMultipleOf (max vsize 4096) 16384)
    let physBytes := min physBytes ceiling
    let physPages := nextMultipleOf physBytes 16384 / 4096
    let poolFrames := physPages + physPages / 16 + Ctrl.ctrlFrames + 128
    let phys := PhysMem.new (poolFrames * 4096)
    let fa := (FrameAllocator.new phys.nframes).setReserve 64
    match Ctrl.reserveAndBuild image ⟨fa, phys⟩ with
    | none => none
    | some pl =>
      match AddrSpace.new pl with
      | none => none
      | some (space, pl) =>
        match installKstack space (Ctrl.mapInto space pl) with
        | none => none
        | some (kstackPa, pl) => some (empty base size space kstackPa, pl)

/-! ### Geometry -/

def npages (g : GuestMemory) : Nat := g.size / 4096

def limit (g : GuestMemory) : Nat := u64 (g.base + g.size)

def pageBase (g : GuestMemory) (p : Nat) : Nat := g.base + p * 4096

def pageIndex (g : GuestMemory) (addr : Nat) : Option Nat :=
  if addr < g.base ∨ g.limit ≤ addr then none else some ((addr - g.base) / 4096)

def pageRange (g : GuestMemory) (addr len : Nat) : Except MemError (Nat × Nat) :=
  if len = 0 then
    match g.pageIndex addr with
    | none => .error (.outOfBounds addr)
    | some p => .ok (p, p)
  else
    let stop := addr + (len - 1)
    if 2 ^ 64 ≤ stop then .error (.outOfBounds addr)
    else
      match g.pageIndex addr, g.pageIndex stop with
      | none, _ => .error (.outOfBounds addr)
      | _, none => .error (.outOfBounds stop)
      | some first, some last => .ok (first, last)

def pageSpan (g : GuestMemory) (addr len : Nat) : Except MemError (Nat × Nat) :=
  let start := pageOf addr
  let stop := roundUp (u64 (addr + len)) 4096
  g.pageRange start (u64 (stop + 2 ^ 64 - start))

/-- The pages from `first` to `last`, both included. -/
def pagesOf (r : Nat × Nat) : List Nat := List.range' r.1 (r.2 + 1 - r.1)

/-! ### Mapping -/

/-- The protection of the leaf for page `p`: read-only while shared copy-on-write. -/
def leafProt (g : GuestMemory) (p frame : Nat) (fa : FrameAllocator) : Prot :=
  if !g.sharedAnon p && (g.prot p).contains .write && decide (1 < fa.refcountAt frame) then
    (g.prot p).readOnly
  else g.prot p

/-- Remove the leaf at `va` and give its frame back; whether there was one. -/
def dropLeaf (s : AddrSpace) (va : Nat) (pl : Pool) : Bool × Pool :=
  match s.unmap va pl with
  | (some frame, pl) => (true, pl.free frame)
  | (none, pl) => (false, pl)

def dropPage (g : GuestMemory) (p : Nat) (pl : Pool) : Bool × Pool :=
  if g.mapped p then dropLeaf g.space (g.pageBase p) pl else (false, pl)

def recordPage (g : GuestMemory) (p : Nat) (prot : Prot) (sharedAnon : Bool) : GuestMemory :=
  { g with
    mappedCount := g.mappedCount + if g.mapped p then 0 else 1
    mapped := g.mapped.set p true
    prot := g.prot.set p prot
    fileBacked := g.fileBacked.set p false
    sharedAnon := g.sharedAnon.set p sharedAnon }

/-- One turn of the loop of `map`. -/
def mapPage (prot : Prot) (st : GuestMemory × Pool) (p : Nat) : GuestMemory × Pool :=
  let g := st.1.recordPage p prot false
  ({ g with forkPolicy := g.forkPolicy.set p none }, (st.1.dropPage p st.2).2)

/-- Map, or map anew, the pages of `[addr, addr + len)`.  No page gets a frame yet. -/
def map (g : GuestMemory) (addr len : Nat) (prot : Prot) (pl : Pool) : Outcome :=
  if len = 0 then (.ok (), g, pl)
  else
    match g.pageSpan addr len with
    | .error e => (.error e, g, pl)
    | .ok r =>
      let (g, pl) := (pagesOf r).foldl (mapPage prot) (g, pl)
      (.ok (), { g with locks := g.locks.remove r.1 (r.2 + 1) }, pl)

/-- Give mapped pages a fork policy, or take it away again with 0. -/
def setForkPolicy (g : GuestMemory) (addr len : Nat) (policy : BitVec 8) :
    Except MemError Unit × GuestMemory :=
  if len = 0 then (.ok (), g)
  else
    match g.pageSpan addr len with
    | .error e => (.error e, g)
    | .ok r =>
      match (pagesOf r).find? fun p => !g.mapped p with
      | some p => (.error (.unmapped (g.pageBase p)), g)
      | none =>
        let entry := if policy = 0 then none else some policy
        (.ok (), { g with
          forkPolicy := (pagesOf r).foldl (fun v p => v.set p entry) g.forkPolicy })

/-- Back the page at `va` with a zeroed frame, unless it has one. -/
def ensureBacked (s : AddrSpace) (prot : Prot) (pl : Pool) (va : Nat) : Bool × Pool :=
  if (s.translate va pl.phys).isSome then (true, pl)
  else
    match pl.alloc with
    | none => (false, pl)
    | some (frame, pl) =>
      match s.map va frame prot false pl with
      | (.ok _, pl) => (true, pl)
      | (.error _, pl) => (false, pl.free frame)

/-- The loop of `map_shared_anon`. -/
def backShared : List Nat → GuestMemory → Pool → Outcome
  | [], g, pl => (.ok (), g, pl)
  | p :: ps, g, pl =>
    let g := { g with sharedAnon := g.sharedAnon.set p true }
    match ensureBacked g.space (g.prot p) pl (g.pageBase p) with
    | (false, pl) => (.error .exhausted, g, pl)
    | (true, pl) => backShared ps g pl

def mapSharedAnon (g : GuestMemory) (addr len : Nat) (prot : Prot) (pl : Pool) : Outcome :=
  match g.map addr len prot pl with
  | (.error e, g, pl) => (.error e, g, pl)
  | (.ok _, g, pl) =>
    match g.pageSpan addr len with
    | .error e => (.error e, g, pl)
    | .ok r => backShared (pagesOf r) g pl

/-- Take `n` frames from the pool, all or none. -/
def allocFrames (n : Nat) (out : List Nat) (pl : Pool) : Option (List Nat) × Pool :=
  match n with
  | 0 => (some out, pl)
  | n + 1 =>
    match pl.alloc with
    | some (f, pl) => allocFrames n (out ++ [f]) pl
    | none => (none, out.foldl Pool.free pl)

/-- Drop the owner's reference to each of `frames`. -/
def releaseFrames (frames : List Nat) (pl : Pool) : Pool := frames.foldl Pool.free pl

def sharedPhys (g : GuestMemory) (addr : Nat) (pl : Pool) : Option Nat :=
  match g.pageIndex addr with
  | none => none
  | some p =>
    if !g.mapped p || !g.sharedAnon p then none
    else (g.space.translate addr pl.phys).map Translation.paddr

def sharedFrames (g : GuestMemory) (addr len : Nat) (pl : Pool) : Option (List Nat) :=
  if 2 ^ 64 ≤ addr + len then none
  else ((List.range ((len + 4095) / 4096)).map fun i => addr + i * 4096).mapM fun p =>
    (g.sharedPhys p pl).map pageOf

/-- The loop of `map_frames`; fewer frames than pages is a panic. -/
def mapFramesLoop (prot : Prot) : List Nat → List Nat → GuestMemory → Pool → Option Outcome
  | [], _, g, pl => some (.ok (), g, pl)
  | _ :: _, [], _, _ => none
  | p :: ps, frame :: frames, g, pl =>
    let (dropped, pl) := g.dropPage p pl
    let g := { g with tlbDirty := g.tlbDirty || dropped }
    match g.space.map (g.pageBase p) frame prot false (pl.incref frame) with
    | (.error _, pl) => some (.error .exhausted, g, pl.free frame)
    | (.ok old, pl) =>
      let pl := match old with
        | some o => pl.free o
        | none => pl
      mapFramesLoop prot ps frames (g.recordPage p prot true) pl

/-- Map `frames` at `addr`, each page taking its own reference to its frame. -/
def mapFrames (g : GuestMemory) (addr : Nat) (frames : List Nat) (prot : Prot) (pl : Pool) :
    Option Outcome :=
  if frames = [] then some (.ok (), g, pl)
  else
    match g.pageRange addr (frames.length * 4096) with
    | .error e => some (.error e, g, pl)
    | .ok r => mapFramesLoop prot (pagesOf r) frames g pl

/-- Back a mapped page on a fault, if that is what it was missing. -/
def demandFault (g : GuestMemory) (addr : Nat) (pl : Pool) : Bool × Pool :=
  let page := pageOf addr
  match g.pageIndex page with
  | none => (false, pl)
  | some p =>
    if !g.mapped p || (g.space.translate page pl.phys).isSome then (false, pl)
    else if g.prot p = .none then (false, pl)
    else ensureBacked g.space (g.prot p) pl page

def markFileBacked (g : GuestMemory) (addr len : Nat) : GuestMemory :=
  if len = 0 ∨ addr < g.base then g
  else
    let start := (addr - g.base) / 4096
    let stop := min (u64 (roundUp (u64 (addr + len)) 4096 + 2 ^ 64 - g.base) / 4096) g.npages
    { g with
      fileBacked := (List.range' start (stop - start)).foldl (fun v p => v.set p true)
        g.fileBacked }

/-- The loop of `protect`, which stops at the first page that is not mapped. -/
def protectPages (prot : Prot) : List Nat → GuestMemory → Pool → Outcome
  | [], g, pl => (.ok (), g, pl)
  | p :: ps, g, pl =>
    if !g.mapped p then (.error (.unmapped (g.pageBase p)), g, pl)
    else
      let g := { g with prot := g.prot.set p prot }
      match g.space.translate (g.pageBase p) pl.phys with
      | none => protectPages prot ps g pl
      | some t =>
        let lp := g.leafProt p (pageOf t.paddr) pl.fa
        let (changed, pl) := g.space.protect (g.pageBase p) lp false pl
        protectPages prot ps { g with tlbDirty := g.tlbDirty || changed } pl

def protect (g : GuestMemory) (addr len : Nat) (prot : Prot) (pl : Pool) : Outcome :=
  if len = 0 then (.ok (), g, pl)
  else
    match g.pageSpan addr len with
    | .error e => (.error e, g, pl)
    | .ok r => protectPages prot (pagesOf r) g pl

/-- One turn of the loop of `unmap`. -/
def unmapPage (st : GuestMemory × Pool) (p : Nat) : GuestMemory × Pool :=
  let g := st.1
  let (dropped, pl) := g.dropPage p st.2
  ({ g with
    tlbDirty := g.tlbDirty || dropped
    mappedCount := g.mappedCount - if g.mapped p then 1 else 0
    mapped := g.mapped.set p false
    prot := g.prot.set p .none
    fileBacked := g.fileBacked.set p false
    sharedAnon := g.sharedAnon.set p false
    forkPolicy := g.forkPolicy.set p none }, pl)

def unmap (g : GuestMemory) (addr len : Nat) (pl : Pool) : Outcome :=
  if len = 0 then (.ok (), g, pl)
  else
    match g.pageSpan addr len with
    | .error e => (.error e, g, pl)
    | .ok r =>
      let (g, pl) := (pagesOf r).foldl unmapPage (g, pl)
      (.ok (), { g with locks := g.locks.remove r.1 (r.2 + 1) }, pl)

/-! ### Locks -/

/-- The page range `[first, end)` of `[addr, addr + len)`. -/
def lockSpan (g : GuestMemory) (addr len : Nat) : Option (Nat × Nat) :=
  if 2 ^ 64 ≤ addr + len then none
  else
    let start := pageOf addr
    match g.pageRange start (u64 (roundUp (addr + len) 4096 + 2 ^ 64 - start)) with
    | .error _ => none
    | .ok (first, last) => some (first, last + 1)

def setLocked (g : GuestMemory) (addr len : Nat) (locked : Bool) : GuestMemory :=
  if len = 0 then g
  else
    match g.lockSpan addr len with
    | none => g
    | some (first, stop) =>
      { g with locks := if locked then g.locks.insert first stop else g.locks.remove first stop }

/-- One turn of `lock_all`: extend the run by `p`, or lock it and start the next. -/
def lockRun (st : Option (Nat × Nat) × PageLocks) (p : Nat) : Option (Nat × Nat) × PageLocks :=
  match st with
  | (some (s, e), locks) =>
    if e = p then (some (s, p + 1), locks) else (some (p, p + 1), locks.insert s e)
  | (none, locks) => (some (p, p + 1), locks)

def lockAll (g : GuestMemory) (current future : Bool) : GuestMemory :=
  let locks :=
    if current then
      match ((List.range g.npages).filter g.mapped).foldl lockRun (none, g.locks) with
      | (some (s, e), locks) => locks.insert s e
      | (none, locks) => locks
    else g.locks
  { g with locks := { locks with future := future } }

def unlockAll (g : GuestMemory) : GuestMemory := { g with locks := g.locks.clear }

/-! ### Access -/

def checkPages (g : GuestMemory) (need : Prot) : List Nat → Except MemError Unit
  | [] => .ok ()
  | p :: ps =>
    if !g.mapped p then .error (.unmapped (g.pageBase p))
    else if !(g.prot p).contains need then .error (.protection (g.pageBase p) need)
    else checkPages g need ps

def checkPagedLoop (g : GuestMemory) (pl : Pool) (addr : Nat) (need : Prot) :
    List Nat → Except MemError Unit
  | [] => .ok ()
  | cur :: rest =>
    match g.space.translate cur pl.phys with
    | some t =>
      if !t.supervisor && t.prot.contains need then checkPagedLoop g pl addr need rest
      else .error (.protection cur need)
    | none => .error (.outOfBounds addr)

/-- `check` outside the extent, by the page tables. A range with the very last page never passes:
the source's page counter wraps there. -/
def checkPaged (g : GuestMemory) (pl : Pool) (addr len : Nat) (need : Prot) :
    Except MemError Unit :=
  let first := pageOf addr
  let stop := min (addr + max len 1) (2 ^ 64 - 1)
  let pages := (List.range ((stop - first + 4095) / 4096)).map fun i => first + i * 4096
  match checkPagedLoop g pl addr need pages with
  | .error e => .error e
  | .ok _ => if 2 ^ 64 - 4096 < stop then .error (.outOfBounds addr) else .ok ()

/-- Whether `[addr, addr + len)` is mapped and every page grants `need`. -/
def check (g : GuestMemory) (pl : Pool) (addr len : Nat) (need : Prot) : Except MemError Unit :=
  if 2 ^ 64 ≤ addr + len then .error (.outOfBounds addr)
  else if addr < g.base ∨ g.limit < addr + len then g.checkPaged pl addr len need
  else
    match g.pageRange addr len with
    | .error e => .error e
    | .ok r => g.checkPages need (pagesOf r)

/-- Copy out, page by page; a page without a frame reads as zero. -/
def copyOut (s : AddrSpace) (pl : Pool) : Nat → Nat → Nat → List Byte
  | 0, _, _ => []
  | fuel + 1, addr, len =>
    if len = 0 then []
    else
      let n := min len (4096 - addr % 4096)
      let chunk := match s.translate addr pl.phys with
        | some t => pl.phys.read t.paddr n
        | none => List.replicate n 0
      chunk ++ copyOut s pl fuel (addr + n) (len - n)

def read (g : GuestMemory) (pl : Pool) (addr len : Nat) : Except MemError (List Byte) :=
  if len = 0 then .ok []
  else
    match g.check pl addr len .read with
    | .error e => .error e
    | .ok _ => .ok (copyOut g.space pl len addr len)

/-- Make the frame behind `va` one this space may write. The answer is whether a present leaf
changed. -/
def makeWritable (s : AddrSpace) (prot : Prot) (pl : Pool) (va : Nat) (sharedAnon : Bool) :
    Except MemError Bool × Pool :=
  match s.translate va pl.phys with
  | none => (.ok false, pl)
  | some t =>
    let frame := pageOf t.paddr
    if !sharedAnon && decide (1 < pl.fa.refcountAt frame) then
      match pl.alloc with
      | none => (.error .exhausted, pl)
      | some (new, pl) =>
        let pl := { pl with phys := pl.phys.copyFrame new frame }
        match s.map va new prot false pl with
        | (.error _, pl) => (.error .exhausted, pl.free new)
        | (.ok (some old), pl) => (.ok true, pl.free old)
        | (.ok none, pl) => (.ok true, pl)
    else
      let (changed, pl) := s.protect va prot false pl
      (.ok changed, pl)

/-- The first loop of `copy_in` and `write_init`: back each page, make it writable. -/
def backPages (g : GuestMemory) : List Nat → Bool → Pool → Except MemError Bool × Pool
  | [], changed, pl => (.ok changed, pl)
  | p :: ps, changed, pl =>
    match ensureBacked g.space (g.prot p) pl (g.pageBase p) with
    | (false, pl) => (.error .exhausted, pl)
    | (true, pl) =>
      match makeWritable g.space (g.prot p) pl (g.pageBase p) (g.sharedAnon p) with
      | (.error e, pl) => (.error e, pl)
      | (.ok c, pl) => backPages g ps (changed || c) pl

/-- The second loop: copy the bytes in, page by page. -/
def copyChunks (s : AddrSpace) : Nat → Nat → List Byte → Pool → Except MemError Unit × Pool
  | 0, _, _, pl => (.ok (), pl)
  | fuel + 1, addr, buf, pl =>
    if buf = [] then (.ok (), pl)
    else
      let n := min buf.length (4096 - addr % 4096)
      match s.translate addr pl.phys with
      | none => (.error (.unmapped (pageOf addr)), pl)
      | some t =>
        copyChunks s fuel (addr + n) (buf.drop n)
          { pl with phys := pl.phys.write t.paddr (buf.take n) }

/-- The two loops over the pages `r`. -/
def storeRange (g : GuestMemory) (r : Nat × Nat) (addr : Nat) (buf : List Byte) (pl : Pool) :
    Outcome :=
  match backPages g (pagesOf r) false pl with
  | (.error e, pl) => (.error e, g, pl)
  | (.ok changed, pl) =>
    let (res, pl) := copyChunks g.space buf.length addr buf pl
    (res, { g with tlbDirty := g.tlbDirty || changed }, pl)

def copyIn (g : GuestMemory) (addr : Nat) (buf : List Byte) (pl : Pool) : Outcome :=
  match g.pageRange addr buf.length with
  | .error e => (.error e, g, pl)
  | .ok r => g.storeRange r addr buf pl

def write (g : GuestMemory) (addr : Nat) (buf : List Byte) (pl : Pool) : Outcome :=
  if buf = [] then (.ok (), g, pl)
  else
    match g.check pl addr buf.length .write with
    | .error e => (.error e, g, pl)
    | .ok _ => g.copyIn addr buf pl

def cowFault (g : GuestMemory) (addr : Nat) (write : Bool) (pl : Pool) : Bool × Pool :=
  if !write then (false, pl)
  else
    match g.pageIndex addr with
    | none => (false, pl)
    | some p =>
      if !g.mapped p || !(g.prot p).contains .write then (false, pl)
      else
        match makeWritable g.space (g.prot p) pl (g.pageBase p) (g.sharedAnon p) with
        | (.ok _, pl) => (true, pl)
        | (.error _, pl) => (false, pl)

/-- Write `buf` at `addr` whatever the protection, as long as the pages are mapped. -/
def writeInit (g : GuestMemory) (addr : Nat) (buf : List Byte) (pl : Pool) : Outcome :=
  match g.pageRange addr buf.length with
  | .error e => (.error e, g, pl)
  | .ok r =>
    match (pagesOf r).find? fun p => !g.mapped p with
    | some p => (.error (.unmapped (g.pageBase p)), g, pl)
    | none => g.storeRange r addr buf pl

/-! ### Fork, exec and exit -/

/-- Republish the leaves of the shared pages as writable, on both sides of a fork. -/
def reshare (g : GuestMemory) (child : AddrSpace) (pl : Pool) : Pool :=
  ((List.range g.npages).filter g.sharedAnon).foldl (fun pl p =>
    if g.mapped p then
      (child.protect (g.pageBase p) (g.prot p) false
        (g.space.protect (g.pageBase p) (g.prot p) false pl).2).2
    else pl) pl

def policyPages (g : GuestMemory) : List Nat :=
  (List.range g.npages).filter fun p => (g.forkPolicy p).isSome

def dropPolicy (g : GuestMemory) (child : AddrSpace) (pl : Pool) : Pool :=
  g.policyPages.foldl (fun pl p => (dropLeaf child (g.pageBase p) pl).2) pl

def childOf (g : GuestMemory) (child : AddrSpace) (kstackPa : Nat) : GuestMemory where
  base := g.base
  size := g.size
  space := child
  prot := g.prot
  mapped := fun p => if g.forkPolicy p = some forkDont then false else g.mapped p
  mappedCount := g.policyPages.foldl (fun n p =>
    if g.forkPolicy p = some forkDont ∧ g.mapped p then n - 1 else n) g.mappedCount
  fileBacked := g.fileBacked
  sharedAnon := fun p => if (g.forkPolicy p).isSome then false else g.sharedAnon p
  forkPolicy := fun p => if g.forkPolicy p = some forkDont then none else g.forkPolicy p
  locks := .default
  tlbDirty := false
  kstackPa := kstackPa
  shared := g.shared

/-- The child, if the pool could hold it, and this space. The outer `none` is the panic for want of
a kernel stack. -/
def tryFork (g : GuestMemory) (pl : Pool) : Option (Option GuestMemory × GuestMemory × Pool) :=
  match g.space.forkCow pl with
  | (none, pl) => some (none, g, pl)
  | (some child, pl) =>
    let pl := Ctrl.mapInto child (Ctrl.mapInto g.space (pl.setUseReserve true))
    match installKstack g.space pl with
    | none => none
    | some (parentKstack, pl) =>
      match installKstack child pl with
      | none => none
      | some (childKstack, pl) =>
        let pl := g.dropPolicy child (g.reshare child (pl.setUseReserve false))
        some (some (g.childOf child childKstack), { g with kstackPa := parentKstack }, pl)

/-- Replace the page tables by fresh ones and forget every mapping: `execve`. -/
def execReset (g : GuestMemory) (pl : Pool) : Option (GuestMemory × Pool) :=
  match AddrSpace.new (pl.setUseReserve true) with
  | none => none
  | some (ns, pl) =>
    match installKstack ns (Ctrl.mapInto ns pl) with
    | none => none
    | some (kstackPa, pl) =>
      let pl := (g.space.destroy pl).setUseReserve false
      some ({ empty g.base g.size ns kstackPa with
        locks := g.locks.clear, tlbDirty := g.tlbDirty, shared := g.shared }, pl)

def retire (g : GuestMemory) (pl : Pool) : GuestMemory × Pool :=
  ({ empty g.base g.size .retired 0 with
    locks := g.locks, tlbDirty := true, shared := g.shared }, g.space.destroy pl)

end GuestMemory

end NixVm
