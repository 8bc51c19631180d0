/-
What a host directory mapped into the guest is charged for (`src/fs/passthrough.rs`).

The host's directory is modelled as the host has it: entries, each a name in a directory, and the
inodes they lead to. What `resolve` finds and what the host answers are part of a call. A file
without entries is gone, since no call keeps one open.
-/
import NixVm.Fs.Quota
import NixVm.Kernel.Errno
import NixVm.Lib.Run
import NixVm.Lib.Weight

namespace NixVm.Disk

structure Loc where
  dir : Nat
  name : String
  deriving DecidableEq

inductive Inode
  | file (len : Nat)
  | dir
  | symlink
  /-- A FIFO, socket or device. -/
  | special
  deriving DecidableEq

def Inode.len : Inode → Nat
  | .file len => len
  | _ => 0

/-! ### The host -/

structure Host where
  entries : Assoc Loc Nat
  inodes : Assoc Nat Inode
  next : Nat

namespace Host

def empty : Host := ⟨∅, ∅, 2⟩

def node (h : Host) (loc : Loc) : Option (Nat × Inode) :=
  (h.entries.lookup loc).bind fun ino => (h.inodes.lookup ino).map fun n => (ino, n)

def nlink (h : Host) (ino : Nat) : Nat :=
  Assoc.weight (fun _ i => if i = ino then 1 else 0) h.entries

def add (h : Host) (loc : Loc) (n : Inode) : Host where
  entries := h.entries.insert loc h.next
  inodes := h.inodes.insert h.next n
  next := h.next + 1

def setLen (h : Host) (ino len : Nat) : Host :=
  { h with inodes := h.inodes.insert ino (.file len) }

/-- `mkdirat`, `mknodat` and `symlinkat`. -/
def make (n : Inode) (h : Host) (loc : Loc) : Except Errno Host :=
  if (h.entries.lookup loc).isSome then .error .eexist else .ok (h.add loc n)

/-- `openat` with `O_WRONLY | O_CREAT | O_TRUNC | O_NOFOLLOW`. -/
def openCreate (h : Host) (loc : Loc) : Except Errno Host :=
  match h.node loc with
  | none => if (h.entries.lookup loc).isSome then .error .eio else .ok (h.add loc (.file 0))
  | some (ino, .file _) => .ok (h.setLen ino 0)
  | some (_, .dir) => .error .eisdir
  | some (_, .symlink) => .error .eloop
  | some (_, .special) => .ok h

def linkat (h : Host) (old new : Loc) : Except Errno Host :=
  match h.node old with
  | none => .error .enoent
  | some (_, .dir) => .error .eperm
  | some (ino, _) =>
    if (h.entries.lookup new).isSome then .error .eexist
    else .ok { h with entries := h.entries.insert new ino }

def remove (h : Host) (loc : Loc) (ino : Nat) : Host where
  entries := h.entries.erase loc
  inodes := if h.nlink ino = 1 then h.inodes.erase ino else h.inodes
  next := h.next

def unlinkat (h : Host) (loc : Loc) : Except Errno Host :=
  match h.node loc with
  | none => .error .enoent
  | some (_, .dir) => .error .eisdir
  | some (ino, _) => .ok (h.remove loc ino)

def isEmpty (h : Host) (ino : Nat) : Bool := h.entries.keys.all fun l => l.dir ≠ ino

/-- `unlinkat` with `AT_REMOVEDIR`. -/
def rmdirat (h : Host) (loc : Loc) : Except Errno Host :=
  match h.node loc with
  | none => .error .enoent
  | some (ino, .dir) => if h.isEmpty ino then .ok (h.remove loc ino) else .error .enotempty
  | some _ => .error .enotdir

def moveEntry (h : Host) (source target : Loc) (ino : Nat) : Host :=
  { h with entries := (h.entries.erase source).insert target ino }

/-- `renameat`, which does nothing where both names lead to one inode. -/
def renameat (h : Host) (source target : Loc) : Except Errno Host :=
  match h.node source, h.node target with
  | none, _ => .error .enoent
  | some (ino, _), none =>
    if (h.entries.lookup target).isSome then .error .eio else .ok (h.moveEntry source target ino)
  | some (ino, n), some (ino', n') =>
    if ino = ino' then .ok h
    else
      match n, n' with
      | .dir, .dir =>
        if h.isEmpty ino' then .ok ((h.remove target ino').moveEntry source target ino)
        else .error .enotempty
      | .dir, _ => .error .enotdir
      | _, .dir => .error .eisdir
      | _, _ => .ok ((h.remove target ino').moveEntry source target ino)

end Host

/-! ### The mapped directory -/

def entryCost : Nat := 4096
def hostCheckInterval : Nat := 67108864
def maxOffset : Nat := 2 ^ 63 - 1
def u64Max : Nat := 2 ^ 64 - 1

structure Passthrough where
  host : Host
  readOnly : Bool
  disk : Quota
  sinceHostCheck : Option Nat

abbrev Res (α : Type) := Except Errno α × Passthrough

namespace Passthrough

/-- `charge_disk`, and whether it went through. -/
def chargeDisk (p : Passthrough) (bytes : Nat) (low : Bool) : Bool × Passthrough :=
  match p.disk.tryCharge bytes with
  | none => (false, p)
  | some q =>
    let since := (p.sinceHostCheck.map (· + bytes)).getD hostCheckInterval
    if since < hostCheckInterval then (true, { p with disk := q, sinceHostCheck := some since })
    else if low then (false, { p with disk := q.release bytes, sinceHostCheck := none })
    else (true, { p with disk := q, sinceHostCheck := some 0 })

def withEntryCharge (p : Passthrough) (low : Bool)
    (make : Host → Except Errno Unit × Host) : Res Unit :=
  if p.readOnly then (.error .erofs, p)
  else
    match p.chargeDisk entryCost low with
    | (false, p) => (.error .enospc, p)
    | (true, p) =>
      match make p.host with
      | (.error e, h) => (.error e, { p with host := h, disk := p.disk.release entryCost })
      | (.ok _, h) => (.ok (), { p with host := h })

/-- Make an entry, and then set its mode, which can fail. -/
def makeEntry {α : Type} (loc : Except Errno α) (refused : Option Errno)
    (make : Host → α → Except Errno Host) (late : Option Errno) (h : Host) :
    Except Errno Unit × Host :=
  match loc, refused with
  | .error e, _ => (.error e, h)
  | .ok _, some e => (.error e, h)
  | .ok l, none =>
    match make h l, late with
    | .error e, _ => (.error e, h)
    | .ok h, some e => (.error e, h)
    | .ok h, none => (.ok (), h)

def create (p : Passthrough) (loc : Except Errno Loc) (refused late : Option Errno)
    (low : Bool) : Res Unit :=
  p.withEntryCharge low (makeEntry loc refused Host.openCreate late)

def mkdir (p : Passthrough) (loc : Except Errno Loc) (refused late : Option Errno)
    (low : Bool) : Res Unit :=
  p.withEntryCharge low (makeEntry loc refused (Host.make .dir) late)

/-- `mknod`, which does not care whether the mode can be set. -/
def mknod (p : Passthrough) (loc : Except Errno Loc) (regular : Bool) (refused : Option Errno)
    (low : Bool) : Res Unit :=
  p.withEntryCharge low
    (makeEntry loc refused (Host.make (if regular then .file 0 else .special)) none)

def symlink (p : Passthrough) (loc : Except Errno Loc) (refused : Option Errno) (low : Bool) :
    Res Unit :=
  p.withEntryCharge low (makeEntry loc refused (Host.make .symlink) none)

def link (p : Passthrough) (locs : Except Errno (Loc × Loc)) (refused : Option Errno)
    (low : Bool) : Res Unit :=
  p.withEntryCharge low (makeEntry locs refused (fun h l => h.linkat l.1 l.2) none)

/-- The regular file at a place, opened for writing. -/
def openFile (p : Passthrough) (loc : Except Errno Loc) (refused : Option Errno) :
    Except Errno (Nat × Nat) :=
  match loc, refused with
  | .error e, _ => .error e
  | .ok _, some e => .error e
  | .ok l, none =>
    match p.host.node l with
    | none => .error .enoent
    | some (ino, .file size) => .ok (ino, size)
    | some (_, .dir) => .error .eisdir
    | some (_, .symlink) => .error .eloop
    | some (_, .special) => .error .einval

/-- `write_at`: the host takes so many bytes of the `len`, or fails. -/
def writeAt (p : Passthrough) (loc : Except Errno Loc) (refused : Option Errno) (off len : Nat)
    (answer : Except Errno Nat) (low : Bool) : Res Nat :=
  if p.readOnly then (.error .erofs, p)
  else
    match p.openFile loc refused with
    | .error e => (.error e, p)
    | .ok (ino, size) =>
      let stop := min (off + len) u64Max
      let growth := stop - size
      match p.chargeDisk growth low with
      | (false, p) => (.error .enospc, p)
      | (true, p) =>
        match answer with
        | .error e => (.error e, { p with disk := p.disk.release growth })
        | .ok written =>
          let written := min written len
          if maxOffset < off + written then
            (.error .efbig, { p with disk := p.disk.release growth })
          else
            let size' := if written = 0 then size else max size (off + written)
            (.ok written, { p with
              host := p.host.setLen ino size'
              disk := p.disk.release (stop - min (max (off + written) size) stop) })

def truncate (p : Passthrough) (loc : Except Errno Loc) (refused : Option Errno) (len : Nat)
    (fails : Option Errno) (low : Bool) : Res Unit :=
  if p.readOnly then (.error .erofs, p)
  else
    match p.openFile loc refused with
    | .error e => (.error e, p)
    | .ok (ino, size) =>
      match p.chargeDisk (len - size) low with
      | (false, p) => (.error .enospc, p)
      | (true, p) =>
        match fails with
        | some e => (.error e, { p with disk := p.disk.release (len - size) })
        | none => (.ok (), { p with
            host := p.host.setLen ino len
            disk := p.disk.release (size - len) })

/-- The bytes that go with a name, as far as the file can be opened to tell. -/
def freed (h : Host) (loc : Loc) (readable : Bool) : Nat :=
  match h.node loc with
  | some (ino, .file len) => if readable ∧ h.nlink ino = 1 then len else 0
  | _ => 0

def unlink (p : Passthrough) (loc : Except Errno Loc) (readable : Bool)
    (refused : Option Errno) : Res Unit :=
  if p.readOnly then (.error .erofs, p)
  else
    match loc, refused with
    | .error e, _ => (.error e, p)
    | .ok _, some e => (.error e, p)
    | .ok l, none =>
      match p.host.unlinkat l with
      | .error e => (.error e, p)
      | .ok h => (.ok (), { p with
          host := h
          disk := p.disk.release (freed p.host l readable + entryCost) })

def rmdir (p : Passthrough) (loc : Except Errno Loc) (refused : Option Errno) : Res Unit :=
  if p.readOnly then (.error .erofs, p)
  else
    match loc, refused with
    | .error e, _ => (.error e, p)
    | .ok _, some e => (.error e, p)
    | .ok l, none =>
      match p.host.rmdirat l with
      | .error e => (.error e, p)
      | .ok h => (.ok (), { p with host := h, disk := p.disk.release entryCost })

/-- `rename`, which charges and gives back nothing. -/
def rename (p : Passthrough) (locs : Except Errno (Loc × Loc)) (refused : Option Errno) :
    Res Unit :=
  if p.readOnly then (.error .erofs, p)
  else
    match locs, refused with
    | .error e, _ => (.error e, p)
    | .ok _, some e => (.error e, p)
    | .ok l, none =>
      match p.host.renameat l.1 l.2 with
      | .error e => (.error e, p)
      | .ok h => (.ok (), { p with host := h })

end Passthrough

/-! ### Calls -/

inductive Op
  | create (loc : Except Errno Loc) (refused late : Option Errno) (low : Bool)
  | mkdir (loc : Except Errno Loc) (refused late : Option Errno) (low : Bool)
  | mknod (loc : Except Errno Loc) (regular : Bool) (refused : Option Errno) (low : Bool)
  | symlink (loc : Except Errno Loc) (refused : Option Errno) (low : Bool)
  | link (locs : Except Errno (Loc × Loc)) (refused : Option Errno) (low : Bool)
  | writeAt (loc : Except Errno Loc) (refused : Option Errno) (off len : Nat)
      (answer : Except Errno Nat) (low : Bool)
  | truncate (loc : Except Errno Loc) (refused : Option Errno) (len : Nat)
      (fails : Option Errno) (low : Bool)
  | unlink (loc : Except Errno Loc) (readable : Bool) (refused : Option Errno)
  | rmdir (loc : Except Errno Loc) (refused : Option Errno)
  | rename (locs : Except Errno (Loc × Loc)) (refused : Option Errno)

def Passthrough.step (p : Passthrough) : Op → Option Passthrough
  | .create loc refused late low => some (p.create loc refused late low).2
  | .mkdir loc refused late low => some (p.mkdir loc refused late low).2
  | .mknod loc regular refused low => some (p.mknod loc regular refused low).2
  | .symlink loc refused low => some (p.symlink loc refused low).2
  | .link locs refused low => some (p.link locs refused low).2
  | .writeAt loc refused off len answer low => some (p.writeAt loc refused off len answer low).2
  | .truncate loc refused len fails low => some (p.truncate loc refused len fails low).2
  | .unlink loc readable refused => some (p.unlink loc readable refused).2
  | .rmdir loc refused => some (p.rmdir loc refused).2
  | .rename locs refused => some (p.rename locs refused).2

def Passthrough.init (limit : Nat) (readOnly : Bool) : Passthrough :=
  ⟨.empty, readOnly, ⟨limit, 0⟩, none⟩

def Passthrough.Reach (can : Passthrough → Op → Prop) (p : Passthrough) : Prop :=
  ∃ limit readOnly, Run.Reach Passthrough.step can (.init limit readOnly) p

end NixVm.Disk
