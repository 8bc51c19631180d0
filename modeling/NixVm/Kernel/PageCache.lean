/-
Shared mappings of a file and reads and writes of it (`src/kernel/pagecache.rs`,
`flush_shared_maps` and `sys_munmap` of `src/kernel/mod.rs`, `sys_mremap` of
`src/kernel/mem_syscalls.rs`), for one file.

A page of the file that is mapped is a frame of the page cache, the same one for all that map it,
and the cache lets it go only when nobody does. So a page of an address space that shows the file
is here the number of the file's page, and the frame is what the cache has for it.

Addresses are numbers of pages. A process is an address space with one task. `latest` is the byte
last stored at each offset, by whatever means; it is not a field of the source.
-/
import NixVm.Kernel.Errno
import NixVm.Lib.Run

namespace NixVm.PageCache

def pageSize : Nat := 4096

abbrev Bytes := Nat → UInt8

/-- What a page of an address space shows: a page of the file, or memory of its own. -/
inductive Shown
  | file (index : Nat)
  | own (bytes : Bytes)

def Shown.isFile : Shown → Bool
  | .file _ => true
  | .own _ => false

def Shown.shows (i : Nat) : Shown → Bool
  | .file j => j = i
  | .own _ => false

structure Pte where
  proc : Nat
  page : Nat
  shown : Shown
  read : Bool
  write : Bool

def Pte.within (e : Pte) (proc page n : Nat) : Bool :=
  e.proc = proc && page ≤ e.page && e.page < page + n

structure SharedMap where
  proc : Nat
  base : Nat
  pages : Nat
  first : Nat
  deriving DecidableEq, Repr

def SharedMap.overlaps (m : SharedMap) (proc page n : Nat) : Bool :=
  m.proc = proc && m.base < page + n && page < m.base + m.pages

/-- How `map_frames` ends: all pages are mapped; the range is not one of the space; or there is no
memory for the table of page `k`, when those before are mapped. -/
inductive Mapped
  | all
  | refused
  | upTo (k : Nat)

structure State where
  size : Nat
  /-- The file as the filesystem has it; zero past its end. -/
  disk : Bytes
  cache : Nat → Option Bytes
  ptes : List Pte
  maps : List SharedMap
  latest : Bytes

def State.init (size : Nat) (data : Bytes) : State :=
  let disk : Bytes := fun x => if x < size then data x else 0
  ⟨size, disk, fun _ => none, [], [], disk⟩

namespace State

/-! ### Reading and writing -/

/-- Whether `x` is in the part of page `index` that `[off, off + len)` overlaps. -/
def inPage (off len index x : Nat) : Bool :=
  off / pageSize ≤ index && index ≤ (off + len - 1) / pageSize &&
    max (index * pageSize) off ≤ x && x < min ((index + 1) * pageSize) (off + len)

def putAt (off : Nat) (data : List UInt8) (b : Bytes) : Bytes :=
  fun x => if off ≤ x ∧ x < off + data.length then data.getD (x - off) 0 else b x

def vfsWrite (s : State) (off : Nat) (data : List UInt8) : State :=
  if data = [] then s
  else { s with
    size := max s.size (off + data.length)
    disk := putAt off data s.disk
    cache := fun i => (s.cache i).map fun c o =>
      let x := i * pageSize + o
      if inPage off data.length i x then data.getD (x - off) 0 else c o
    latest := putAt off data s.latest }

def vfsTruncate (s : State) (len : Nat) : State := { s with
  size := len
  disk := fun x => if x < len then s.disk x else 0
  cache := fun i =>
    if len / pageSize ≤ i then
      (s.cache i).map fun c o => if min (len - i * pageSize) pageSize ≤ o then 0 else c o
    else s.cache i
  latest := fun x => if x < len then s.latest x else 0 }

/-! ### Mappings -/

def pteAt (s : State) (proc page : Nat) : Option Pte :=
  s.ptes.find? fun e => e.proc = proc && e.page = page

def shownByte (s : State) (o : Nat) : Shown → UInt8
  | .file i =>
    match s.cache i with
    | some c => c o
    | none => 0
  | .own b => b o

def readable (s : State) (proc page : Nat) : Bool :=
  match s.pteAt proc page with
  | some e => e.read
  | none => false

def memByte (s : State) (proc page o : Nat) : UInt8 :=
  match s.pteAt proc page with
  | some e => s.shownByte o e.shown
  | none => 0

def store (s : State) (proc page o : Nat) (v : UInt8) : Option State :=
  match s.pteAt proc page with
  | none => none
  | some e =>
    if !e.write then none
    else
      match e.shown with
      | .file i => some { s with
          cache := fun j => if j = i then (s.cache i).map fun c p => if p = o then v else c p
            else s.cache j
          latest := fun x => if x = i * pageSize + o then v else s.latest x }
      | .own b => some { s with
          ptes := s.ptes.map fun d => if d.proc = proc && d.page = page then
            { d with shown := .own fun p => if p = o then v else b p } else d }

def missing (s : State) (first n : Nat) : List Nat :=
  (List.range' first n).filter fun i => (s.cache i).isNone

def loaded (s : State) (i : Nat) : Bytes :=
  fun o => if i * pageSize + o < s.size then s.disk (i * pageSize + o) else 0

def unmapRange (s : State) (proc page n : Nat) : State :=
  { s with ptes := s.ptes.filter fun e => !e.within proc page n }

/-- Pages `first + j` of the file at the pages `base + j`, for `j` below `n`. -/
def filePages (proc base first n : Nat) (read write : Bool) : List Pte :=
  (List.range n).map fun j => ⟨proc, base + j, .file (first + j), read, write⟩

/-- `pc_map_shared`: `avail` frames are free, and `map_frames` does what `mapped` says. -/
def mmapShared (s : State) (proc base first n : Nat) (read write : Bool) (avail : Nat)
    (mapped : Mapped) : Option Errno × State :=
  let missing := s.missing first n
  if n = 0 then (some .einval, s)
  else if avail < missing.length then
    -- the frames taken so far stay in the cache, and nothing was read into them
    (some .enomem, { s with
      cache := fun i => if i ∈ missing.take avail then some (fun _ => 0) else s.cache i })
  else
    let s' := { s with cache := fun i => if i ∈ missing then some (s.loaded i) else s.cache i }
    match mapped with
    | .refused => (some .enomem, s')
    | .upTo k =>
      -- the pages mapped so far stay, and no record is made for them
      let s' := s'.unmapRange proc base (min (k + 1) n)
      (some .enomem, { s' with ptes := s'.ptes ++ filePages proc base first (min k n) read write })
    | .all =>
      let s' := s'.unmapRange proc base n
      (none, { s' with
        ptes := s'.ptes ++ filePages proc base first n read write
        maps := if write then s.maps ++ [⟨proc, base, n, first⟩] else s.maps })

/-- One record's bytes to the file, unless a read or the write fails. -/
def flushOne (s : State) (refused : Bool) (disk : Bytes) (m : SharedMap) : Bytes :=
  let off := m.first * pageSize
  let writable := min (s.size - off) (m.pages * pageSize)
  let readable := (List.range ((writable + pageSize - 1) / pageSize)).all fun j =>
    s.readable m.proc (m.base + j)
  if writable = 0 ∨ readable = false ∨ refused = true then disk
  else fun x =>
    if off ≤ x ∧ x < off + writable then
      s.memByte m.proc (m.base + (x - off) / pageSize) ((x - off) % pageSize)
    else disk x

def flush (s : State) (hit : SharedMap → Bool) (refused : Bool) : State := { s with
  disk := (s.maps.filter hit).foldl (s.flushOne refused) s.disk
  maps := s.maps.filter fun m => !hit m }

def gc (s : State) : State := { s with
  cache := fun i => if s.ptes.any fun e => e.shown.shows i then s.cache i else none }

def munmap (s : State) (proc page n : Nat) (refused : Bool) : State :=
  if n = 0 then s else ((s.flush (·.overlaps proc page n) refused).unmapRange proc page n).gc

/-- The end of an address space, by `execve` or exit. -/
def teardown (s : State) (proc : Nat) (refused : Bool) : State :=
  let s' := s.flush (fun m => m.proc = proc) refused
  ({ s' with ptes := s'.ptes.filter fun e => e.proc ≠ proc } : State).gc

/-- Memory of its own in place of what was there: `mmap` with `MAP_FIXED`. -/
def replace (s : State) (proc page n : Nat) (read write : Bool) : State :=
  let s' := s.unmapRange proc page n
  { s' with ptes := s'.ptes ++
      (List.range n).map fun j => ⟨proc, page + j, .own fun _ => 0, read, write⟩ }

def fork (s : State) (parent child : Nat) : State := { s with
  ptes := s.ptes ++ (s.ptes.filter fun e => e.proc = parent).map ({ · with proc := child })
  maps := s.maps ++ (s.maps.filter fun m => m.proc = parent).map ({ · with proc := child }) }

/-- `mremap_move` of the pages kept: the frames if all are shared, else a copy. -/
def moveTo (s : State) (proc old n new newN : Nat) : State :=
  let src := s.ptes.filter fun e => e.within proc old n
  let shared := src.all fun e => e.shown.isFile
  let s' := (s.unmapRange proc new n).unmapRange proc old n
  { s' with
    ptes := s'.ptes ++ src.map (fun e => { e with
      page := new + (e.page - old)
      shown := if shared then e.shown else .own fun o => s.shownByte o e.shown })
    maps := s.maps.map fun m => if m.proc = proc && m.base = old then
      { m with base := new, pages := min m.pages newN } else m }

/-- `sys_mremap`: shrink, move, grow with memory of its own. -/
def mremap (s : State) (proc old oldN newN : Nat) (new : Option Nat) (read write : Bool) : State :=
  match new with
  | none =>
    if newN ≤ oldN then s.unmapRange proc (old + newN) (oldN - newN)
    else s.replace proc (old + oldN) (newN - oldN) read write
  | some new =>
    let keep := min oldN newN
    let s' := (s.moveTo proc old keep new newN).unmapRange proc (old + keep) (oldN - keep)
    s'.replace proc (new + keep) (newN - keep) read write

/-- A `sys_mremap` that returns an error once it has begun to move `n` pages to `new`: those mapped
there stay, with `tail` pages of memory after them, and the old ones are where they were. Memory
that is not shared is not touched. -/
def mremapFailed (s : State) (proc old n new : Nat) (mapped : Mapped) (tail : Nat) : State :=
  let src := s.ptes.filter fun e => e.within proc old n
  let aliased (k : Nat) : List Pte := (src.filter fun e => e.page < old + k).map fun e =>
    { e with page := new + (e.page - old) }
  if !src.all fun e => e.shown.isFile then s
  else
    match mapped with
    | .refused => s
    | .upTo k =>
      let s' := s.unmapRange proc new (min (k + 1) n)
      { s' with ptes := s'.ptes ++ aliased (min k n) }
    | .all =>
      let s' := s.unmapRange proc new n
      ({ s' with ptes := s'.ptes ++ aliased n } : State).replace proc (new + n) tail true true

end State

inductive Op
  | write (off : Nat) (data : List UInt8)
  | truncate (len : Nat)
  | store (proc page o : Nat) (v : UInt8)
  | mmap (proc base first n : Nat) (read write : Bool) (avail : Nat) (mapped : Mapped)
  | munmap (proc page n : Nat) (refused : Bool)
  | teardown (proc : Nat) (refused : Bool)
  | replace (proc page n : Nat) (read write : Bool)
  | fork (parent child : Nat)
  | mremap (proc old oldN newN : Nat) (new : Option Nat) (read write : Bool)
  | mremapFails (proc old n new : Nat) (mapped : Mapped) (tail : Nat)

def State.step (s : State) : Op → Option State
  | .write off data => some (s.vfsWrite off data)
  | .truncate len => some (s.vfsTruncate len)
  | .store proc page o v => if o < pageSize then s.store proc page o v else none
  | .mmap proc base first n read write avail mapped =>
    some (s.mmapShared proc base first n read write avail mapped).2
  | .munmap proc page n refused => some (s.munmap proc page n refused)
  | .teardown proc refused => some (s.teardown proc refused)
  | .replace proc page n read write => some (s.replace proc page n read write)
  | .fork parent child => some (s.fork parent child)
  | .mremap proc old oldN newN new read write => some (s.mremap proc old oldN newN new read write)
  | .mremapFails proc old n new mapped tail => some (s.mremapFailed proc old n new mapped tail)

end NixVm.PageCache
