/-
The calls that give out and take back addresses: `mmap` and `munmap` (`src/kernel/mod.rs`),
`mremap` (`src/kernel/mem_syscalls.rs`), `brk`, `shmat` and `shmdt` (`src/kernel/ipc.rs`).

A `Space` is an arena with the memory it gives addresses of. `out` is not a field of the source: it
lists the ranges that were handed out and not given back.

What a file holds and which frames the page cache has for it come with the call.
-/
import NixVm.Kernel.Arena
import NixVm.Kernel.Errno
import NixVm.Lib.Run
import NixVm.Vcpu.Mem

namespace NixVm

open Ranges (Range)

structure Heap where
  start : Nat
  brk : Nat
  limit : Nat

structure Space where
  arena : Arena
  mem : GuestMemory
  pool : Pool
  heap : Heap
  out : List Range

inductive Grant
  /-- Found by the arena, or free space a mapping grew into. -/
  | fresh (r : Range)
  /-- At an address the caller chose, in the place of whatever was there. -/
  | fixed (r : Range)
  deriving DecidableEq, Repr

def Grant.range : Grant → Range
  | .fresh r | .fixed r => r

/-- What a call returns, what it handed out, and the space. `none` is a panic. -/
abbrev Space.Reply := Option (Except Errno Nat × Option Grant × Space)

namespace GuestMemory

def pageProt (g : GuestMemory) (addr : Nat) : Option Prot :=
  (g.pageIndex addr).bind fun p => if g.mapped p then some (g.prot p) else none

def pageStarts (start stop : Nat) : List Nat :=
  (List.range ((stop - start + 4095) / 4096)).map fun i => start + i * 4096

/-- Whether a byte cannot be read because nothing is mapped there. -/
def unmappedAt (g : GuestMemory) (pl : Pool) (addr : Nat) : Bool :=
  match g.read pl addr 1 with
  | .error (.unmapped _) => true
  | _ => false

def rangeIsMapped (g : GuestMemory) (pl : Pool) (start stop : Nat) : Bool :=
  (pageStarts start stop).all fun p => !g.unmappedAt pl p

def rangeIsFree (g : GuestMemory) (pl : Pool) (start stop : Nat) : Bool :=
  (pageStarts start stop).all fun p => g.unmappedAt pl p

end GuestMemory

namespace Space

def hand (s : Space) : Grant → Space
  | .fresh r => { s with out := r :: s.out }
  | .fixed r => { s with out := r :: Ranges.cutAll r.1 (r.1 + r.2) s.out }

def release (s : Space) (addr len : Nat) : Space :=
  { s with
    arena := s.arena.freeRange addr len
    out := Ranges.cutAll addr (addr + len) s.out }

def after (s : Space) (o : GuestMemory.Outcome) : Space := { s with mem := o.2.1, pool := o.2.2 }

/-- `RLIMIT_AS`, where it is set. -/
def addressSpaceExceeded (s : Space) (limit : Option Nat) (len : Nat) : Bool :=
  limit.any fun limit => limit < min (s.mem.mappedCount * 4096 + len) (2 ^ 64 - 1)

/-! ### mmap -/

structure MmapArgs where
  addr : BitVec 64
  len : BitVec 64
  prot : BitVec 64
  flags : BitVec 64
  offset : BitVec 64

inductive MapFd
  | closed
  | other
  | zero
  | file
  deriving DecidableEq

structure MmapEnv where
  /-- `RLIMIT_AS`, `none` if it is infinite. -/
  limit : Option Nat
  /-- `PR_SET_MDWE` is in force. -/
  mdwe : Bool
  fd : MapFd
  /-- The frames the page cache has, or makes, for so many pages. -/
  frames : Nat → Pool → Except Errno (List Nat) × Pool
  frames_length : ∀ n pl l, (frames n pl).1 = .ok l → l.length = n
  /-- The bytes of the file in so long a mapping of it. -/
  data : Nat → List Byte
  data_length : ∀ n, (data n).length ≤ n

def MmapArgs.shared (a : MmapArgs) : Bool := a.flags &&& 0x01 ≠ 0

def MmapArgs.noreplace (a : MmapArgs) : Bool := a.flags &&& 0x100000 ≠ 0 && a.addr ≠ 0

def MmapArgs.fixed (a : MmapArgs) : Bool :=
  (a.flags &&& 0x10 ≠ 0 || a.noreplace) && a.addr ≠ 0

def mapKnown : BitVec 64 :=
  0x10 ||| 0x20 ||| 0x40 ||| 0x100 ||| 0x800 ||| 0x1000 ||| 0x2000 ||| 0x4000 ||| 0x8000 |||
    0x10000 ||| 0x20000 ||| 0x40000 ||| 0x80000 ||| 0x100000 ||| 0x4000000 ||| (0x3f <<< 26)

def MmapArgs.source (a : MmapArgs) (fd : MapFd) : Except Errno Bool :=
  if a.flags &&& 0x20 ≠ 0 then .ok false
  else
    match fd with
    | .zero => .ok (!a.shared)
    | .file => .ok true
    | .other => .error .eacces
    | .closed => .error .ebadf

def MmapArgs.check (a : MmapArgs) (env : MmapEnv) (s : Space) : Except Errno Bool :=
  if s.addressSpaceExceeded env.limit a.len.toNat then .error .enomem
  else if a.len = 0 then .error .einval
  else if a.flags &&& 0x0f = 3 ∧
      (a.flags &&& ~~~(0x0f ||| mapKnown) ≠ 0 ∨ a.flags &&& 0x80000 ≠ 0) then .error .eopnotsupp
  else if a.flags &&& 0x0f ≠ 1 ∧ a.flags &&& 0x0f ≠ 2 ∧ a.flags &&& 0x0f ≠ 3 then .error .einval
  else if a.prot &&& ~~~(0x3f ||| 0x01000000 ||| 0x02000000) ≠ 0 then .error .einval
  else if env.mdwe ∧ a.prot &&& 6 = 6 then .error .eacces
  else
    match a.source env.fd with
    | .error e => .error e
    | .ok file => if file ∧ a.offset.toNat % 4096 ≠ 0 then .error .einval else .ok file

def MmapArgs.wanted (a : MmapArgs) : Prot := ⟨a.prot.setWidth 8 &&& 0x7⟩

def place (s : Space) (a : MmapArgs) (len : Nat) : Except Errno (Nat × Arena) :=
  if a.fixed then
    let base := pageOf a.addr.toNat
    if a.noreplace ∧ (GuestMemory.pageStarts base (u64 (base + len))).any
        fun p => (s.mem.pageProt p).isSome then .error .eexist
    else .ok (base, s.arena.claim base len)
  else
    match s.arena.alloc len with
    | some r => .ok r
    | none => .error .enomem

/-- Map the pages, and fill them where they are a private copy of a file. -/
def install (s : Space) (a : MmapArgs) (env : MmapEnv) (file : Bool) (base len : Nat) :
    Option (Option Errno × Space) :=
  if a.shared ∧ file then
    match env.frames (len / 4096) s.pool with
    | (.error e, pl) => some (some e, { s with pool := pl })
    | (.ok frames, pl) =>
      (s.mem.mapFrames base frames a.wanted pl).map fun o =>
        (match o.1 with
          | .error _ => some .enomem
          | .ok _ => none, s.after o)
  else
    let o :=
      if !file && a.shared && a.wanted.contains .write then
        s.mem.mapSharedAnon base len a.wanted s.pool
      else s.mem.map base len a.wanted s.pool
    match o.1 with
    | .error _ => some (some .enomem, s.after o)
    | .ok _ =>
      if file then
        let w := o.2.1.writeInit base (env.data len) o.2.2
        match w.1 with
        | .error _ => some (some .enomem, s.after w)
        | .ok _ => some (none, s.after w)
      else some (none, s.after o)

/-- The length in whole pages, in 64 bits. -/
def MmapArgs.rounded (a : MmapArgs) : Nat := roundUp a.len.toNat 4096

def mmap (s : Space) (a : MmapArgs) (env : MmapEnv) : Reply :=
  match a.check env s with
  | .error e => some (.error e, none, s)
  | .ok file =>
    match s.place a a.rounded with
    | .error e => some (.error e, none, s)
    | .ok (base, arena) =>
      ({ s with arena := arena }.install a env file base a.rounded).map fun
        | (some e, s) => (.error e, none, s)
        | (none, s) =>
          let grant := if a.fixed then Grant.fixed (base, a.rounded) else .fresh (base, a.rounded)
          (.ok base, some grant, s.hand grant)

/-! ### munmap -/

def munmap (s : Space) (addr len : BitVec 64) : Reply :=
  if len = 0 then some (.error .einval, none, s)
  else
    let len := roundUp len.toNat 4096
    let base := pageOf addr.toNat
    some (.ok 0, none, (s.after (s.mem.unmap base len s.pool)).release base len)

/-! ### mremap -/

structure MremapArgs where
  oldAddr : BitVec 64
  oldSize : BitVec 64
  newSize : BitVec 64
  flags : BitVec 64
  newAddr : BitVec 64

def MremapArgs.mayMove (a : MremapArgs) : Bool := a.flags &&& 1 ≠ 0
def MremapArgs.fixed (a : MremapArgs) : Bool := a.flags &&& 2 ≠ 0
def MremapArgs.dontUnmap (a : MremapArgs) : Bool := a.flags &&& 4 ≠ 0

def moveInto (s : Space) (old oldSize new newSize : Nat) (prot : Prot) :
    Option (Option Errno × Space) :=
  let keep := min oldSize newSize
  match s.mem.sharedFrames old keep s.pool with
  | some frames =>
    (s.mem.mapFrames new frames prot s.pool).map fun o =>
      match o.1 with
      | .error _ => (some .enomem, s.after o)
      | .ok _ =>
        if keep < newSize then
          let o := o.2.1.mapSharedAnon (u64 (new + keep)) (newSize - keep) prot o.2.2
          (match o.1 with
            | .error _ => some .enomem
            | .ok _ => none, s.after o)
        else (none, s.after o)
  | none =>
    let o := s.mem.map new newSize prot s.pool
    match o.1 with
    | .error _ => some (some .enomem, s.after o)
    | .ok _ =>
      match o.2.1.read o.2.2 old keep with
      | .error _ => some (none, s.after o)
      | .ok data => some (none, s.after (o.2.1.writeInit new data o.2.2))

def mremapMove (s : Space) (old oldSize new newSize : Nat) (prot : Prot) (dontUnmap : Bool) :
    Option (Option Errno × Space) :=
  (s.moveInto old oldSize new newSize prot).map fun
    | (some e, s) => (some e, s)
    | (none, s) =>
      (none, s.after <|
        if dontUnmap then s.mem.map old oldSize prot s.pool else s.mem.unmap old oldSize s.pool)

/-- Move a mapping to a range that was claimed or allocated for it. -/
def relocate (s : Space) (a : MremapArgs) (oldSize newSize new : Nat) (prot : Prot) : Reply :=
  (s.mremapMove a.oldAddr.toNat oldSize new newSize prot a.dontUnmap).map fun
    | (some e, s) => (.error e, none, s)
    | (none, s) =>
      let grant := if a.fixed then Grant.fixed (new, newSize) else .fresh (new, newSize)
      let s := s.hand grant
      (.ok new, some grant, if a.dontUnmap then s else s.release a.oldAddr.toNat oldSize)

/-- Whether the pages after the mapping are free space it may grow into. -/
def roomAfter (s : Space) (a : MremapArgs) (oldEnd extra : Nat) : Bool :=
  !a.dontUnmap && s.arena.isFree oldEnd extra &&
    s.mem.rangeIsFree s.pool oldEnd (u64 (oldEnd + extra))

/-- Grow in place if there is room, else move if that is allowed. -/
def grow (s : Space) (a : MremapArgs) (oldSize newSize oldEnd extra : Nat) (prot : Prot) : Reply :=
  let tried := if s.roomAfter a oldEnd extra then s.mem.map oldEnd extra prot s.pool
    else (.error .exhausted, s.mem, s.pool)
  let s := s.after tried
  if tried.1 = .ok () then
    let grant := Grant.fresh (oldEnd, extra)
    some (.ok a.oldAddr.toNat, some grant,
      { s with arena := s.arena.claim oldEnd extra }.hand grant)
  else if ¬a.mayMove then some (.error .enomem, none, s)
  else
    match s.arena.alloc newSize with
    | none => some (.error .enomem, none, s)
    | some (base, arena) => { s with arena := arena }.relocate a oldSize newSize base prot

/-- `mremap` of a mapped range of whole pages. -/
def resize (s : Space) (a : MremapArgs) (oldSize newSize oldEnd : Nat) (prot : Prot) : Reply :=
  let old := a.oldAddr.toNat
  if a.fixed then
    let new := a.newAddr.toNat
    if new % 4096 ≠ 0 ∨ (new < oldEnd ∧ old < u64 (new + newSize)) then
      some (.error .einval, none, s)
    else { s with arena := s.arena.claim new newSize }.relocate a oldSize newSize new prot
  else if newSize ≤ oldSize ∧ ¬a.dontUnmap then
    let tail := u64 (old + newSize)
    some (.ok old, none, (s.after (s.mem.unmap tail (oldSize - newSize) s.pool)).release tail
      (oldSize - newSize))
  else s.grow a oldSize newSize oldEnd (newSize - oldSize) prot

def mremap (s : Space) (a : MremapArgs) (limit : Option Nat) : Reply :=
  let old := a.oldAddr.toNat
  if a.oldSize = 0 ∨ a.newSize = 0 ∨ old % 4096 ≠ 0 then some (.error .einval, none, s)
  else if s.addressSpaceExceeded limit (a.newSize.toNat - a.oldSize.toNat) then
    some (.error .enomem, none, s)
  else if a.flags &&& ~~~7 ≠ 0 ∨ ((a.fixed ∨ a.dontUnmap) ∧ ¬a.mayMove) then
    some (.error .einval, none, s)
  else
    let oldSize := roundUp a.oldSize.toNat 4096
    let newSize := roundUp a.newSize.toNat 4096
    let oldEnd := u64 (old + oldSize)
    if a.dontUnmap ∧ oldSize ≠ newSize then some (.error .einval, none, s)
    else if !s.mem.rangeIsMapped s.pool old oldEnd then some (.error .efault, none, s)
    else s.resize a oldSize newSize oldEnd ((s.mem.pageProt old).getD .rw)

/-! ### Shared segments -/

/-- `shmat` of a segment of these frames that the caller may attach. -/
def shmat (s : Space) (frames : List Nat) (addr flags : BitVec 64) : Reply :=
  let len := frames.length * 4096
  let prot : Prot := if flags &&& 0o10000 ≠ 0 then .read else .rw
  let prot : Prot := if flags &&& 0o100000 ≠ 0 then ⟨prot.bits ||| Prot.exec.bits⟩ else prot
  let remap := flags &&& 0o40000 ≠ 0
  let base := if flags &&& 0o20000 ≠ 0 then pageOf addr.toNat else addr.toNat
  let placed : Except Errno (Grant × Arena) :=
    if addr = 0 then
      if remap then .error .einval
      else
        match s.arena.alloc len with
        | some (base, arena) => .ok (.fresh (base, len), arena)
        | none => .error .enomem
    else if base % 4096 ≠ 0 then .error .einval
    else if ¬remap ∧ (GuestMemory.pageStarts base (u64 (base + len))).any
        fun p => (s.mem.pageProt p).isSome then .error .einval
    else .ok (.fixed (base, len), s.arena.claim base len)
  match placed with
  | .error e => some (.error e, none, s)
  | .ok (grant, arena) =>
    (s.mem.mapFrames grant.range.1 frames prot s.pool).map fun o =>
      let s := { s.after o with arena := arena }
      match o.1 with
      | .error _ => (.error .enomem, none, s)
      | .ok _ => (.ok grant.range.1, some grant, s.hand grant)

/-- `shmdt` of a segment of so many frames at the address. -/
def shmdt (s : Space) (frames : Nat) (addr : BitVec 64) : Reply :=
  let len := frames * 4096
  some (.ok 0, none, (s.after (s.mem.unmap addr.toNat len s.pool)).release addr.toNat len)

/-! ### brk -/

def brk (s : Space) (addr : BitVec 64) (limit : Option Nat) (dataLimit : Nat) : Reply :=
  let addr := addr.toNat
  let h := s.heap
  if addr = 0 ∨ addr < h.start then some (.ok h.brk, none, s)
  else if h.brk < addr then
    let lo := roundUp h.brk 4096
    let hi := roundUp addr 4096
    let o := s.mem.map lo (hi - lo) .rw s.pool
    if h.limit < hi ∨ dataLimit < u64 (hi + 2 ^ 64 - h.start) ∨
        s.addressSpaceExceeded limit (hi - lo) then some (.ok h.brk, none, s)
    else if lo < hi ∧ o.1 ≠ .ok () then some (.ok h.brk, none, s.after o)
    else
      let s := if lo < hi then s.after o else s
      some (.ok addr, none, { s with heap := { h with brk := addr } })
  else
    let lo := roundUp addr 4096
    let hi := roundUp h.brk 4096
    let s := if addr < h.brk ∧ lo < hi then
      s.after (s.mem.unmap lo (hi - lo) s.pool) else s
    some (.ok addr, none, { s with heap := { h with brk := addr } })

/-! ### Runs -/

inductive Call
  | mmap (a : MmapArgs) (env : MmapEnv)
  | munmap (addr len : BitVec 64)
  | mremap (a : MremapArgs) (limit : Option Nat)
  | brk (addr : BitVec 64) (limit : Option Nat) (dataLimit : Nat)
  | shmat (frames : List Nat) (addr flags : BitVec 64)
  | shmdt (frames : Nat) (addr : BitVec 64)

def call (s : Space) : Call → Reply
  | .mmap a env => s.mmap a env
  | .munmap addr len => s.munmap addr len
  | .mremap a limit => s.mremap a limit
  | .brk addr limit dataLimit => s.brk addr limit dataLimit
  | .shmat frames addr flags => s.shmat frames addr flags
  | .shmdt frames addr => s.shmdt frames addr

def step (s : Space) (c : Call) : Option Space := (s.call c).map fun r => r.2.2

def Fresh (s : Space) : Prop :=
  ∃ top floor, floor ≤ top ∧ top + 4096 ≤ 2 ^ 64 ∧ s.arena = .new top floor ∧ s.out = []

end Space

end NixVm
