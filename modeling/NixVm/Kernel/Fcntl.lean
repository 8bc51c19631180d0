/-
Record locks and `flock` (`src/kernel/fcntl.rs`), with the descriptors that hold them and the names
they were opened by.

A lock is filed under the key of its file, its mount point and inode, and the key is looked up by
the descriptor's path at the time of the call. An absent key and an empty list are the same thing
here: the source removes a list once it is empty.

`file` of a descriptor and `events` of the state are not fields of the source. They are the file
the descriptor was opened on, and the record of what was set, cleared and given up, newest first.
-/
import NixVm.Kernel.Errno
import NixVm.Lib.Run

namespace NixVm.Fcntl

/-- A file's identity: its mount point and inode. -/
abbrev FileKey := String × Nat

inductive Owner
  | process (tgid : Int)
  | ofd (id : Nat)
  deriving DecidableEq, Repr

structure RecLock where
  owner : Owner
  write : Bool
  start : Nat
  stop : Nat
  pid : Int
  deriving DecidableEq, Repr

/-- One `flock` lock, held by an open file description. -/
structure Flock where
  ofd : Nat
  exclusive : Bool
  deriving DecidableEq, Repr

inductive LockType
  | rdlck
  | wrlck
  | unlck
  deriving DecidableEq, Repr

def LockType.mode : LockType → Option Bool
  | .rdlck => some false
  | .wrlck => some true
  | .unlck => none

structure FileLocks where
  records : FileKey → List RecLock
  flocks : FileKey → List Flock

def FileLocks.empty : FileLocks := ⟨fun _ => [], fun _ => []⟩

/-! ### The table -/

/-- Whether a lock stands in the way of a request over `[start, stop)`. -/
def RecLock.blocks (l : RecLock) (owner : Owner) (write : Bool) (start stop : Nat) : Bool :=
  l.owner ≠ owner && l.start < stop && start < l.stop && (write || l.write)

def FileLocks.conflict (t : FileLocks) (key : FileKey) (owner : Owner) (write : Bool)
    (start stop : Nat) : Option RecLock :=
  (t.records key).find? fun l => l.blocks owner write start stop

def RecLock.trim (l : RecLock) (owner : Owner) (start stop : Nat) : List RecLock :=
  if l.owner ≠ owner ∨ l.stop ≤ start ∨ stop ≤ l.start then [l]
  else
    (if l.start < start then [{ l with stop := start }] else []) ++
    (if stop < l.stop then [{ l with start := stop }] else [])

def setIn (v : List RecLock) (owner : Owner) (typ : LockType) (start stop : Nat) (pid : Int) :
    List RecLock :=
  v.flatMap (fun l => l.trim owner start stop) ++
    (typ.mode.map fun write => RecLock.mk owner write start stop pid).toList

def FileLocks.set (t : FileLocks) (key : FileKey) (owner : Owner) (typ : LockType)
    (start stop : Nat) (pid : Int) : FileLocks :=
  { t with records := fun k =>
      if k = key then setIn (t.records k) owner typ start stop pid else t.records k }

def FileLocks.dropWhere (t : FileLocks) (key : Option FileKey) (rec : RecLock → Bool)
    (fl : Flock → Bool) : FileLocks where
  records k := if key.all (· = k) then (t.records k).filter (fun l => !rec l) else t.records k
  flocks k := if key.all (· = k) then (t.flocks k).filter (fun l => !fl l) else t.flocks k

/-! ### Requests -/

/-- A `struct flock` as the guest wrote it. -/
structure FlockArg where
  typ : BitVec 16
  whence : BitVec 16
  start : BitVec 64
  len : BitVec 64
  pid : BitVec 32
  deriving DecidableEq

/-- What a `struct flock` asks for. -/
structure Request where
  typ : LockType
  start : Nat
  stop : Nat
  pid : Int
  deriving DecidableEq

def i64Max : Int := 2 ^ 63 - 1
def u64Max : Nat := 2 ^ 64 - 1

/-- `as i64`, and what `+=` leaves in the release build. -/
def toI64 (n : Int) : Int := Int.bmod n (2 ^ 64)

def checkedAdd (a b : Int) : Option Int :=
  if a + b = toI64 (a + b) then some (a + b) else none

def lockType (typ : BitVec 16) : Option LockType :=
  if typ = 0#16 then some .rdlck
  else if typ = 1#16 then some .wrlck
  else if typ = 2#16 then some .unlck
  else none

def whenceBase (whence : BitVec 16) (pos size : Nat) : Option Int :=
  if whence = 0#16 then some 0
  else if whence = 1#16 then some (toI64 pos)
  else if whence = 2#16 then some (toI64 size)
  else none

/-- The ends of the range, unchecked: length 0 reaches to the end, a negative one covers what is
before. -/
def rangeOf (s len : Int) : Option (Int × Int) :=
  if len = 0 then some (s, i64Max)
  else if 0 < len then (checkedAdd s len).map fun e => (s, e)
  else some (toI64 (s + len), s)

def readFlock (arg : Option FlockArg) (pos size : Nat) : Except Errno Request :=
  match arg with
  | none => .error .efault
  | some raw =>
    match lockType raw.typ, whenceBase raw.whence pos size with
    | none, _ | _, none => .error .einval
    | some typ, some base =>
      match checkedAdd base raw.start.toInt with
      | none => .error .eoverflow
      | some s =>
        match rangeOf s raw.len.toInt with
        | none => .error .eoverflow
        | some (s, e) =>
          if s < 0 then .error .einval
          else .ok ⟨typ, s.toNat, if e = i64Max then u64Max else (e % 2 ^ 64).toNat, raw.pid.toInt⟩

/-! ### Descriptors -/

structure FileFd where
  path : String
  ofd : Nat
  readable : Bool
  writable : Bool
  file : FileKey
  deriving DecidableEq

/-- A descriptor: locks mean something only on a regular file. -/
inductive Fd
  | file (f : FileFd)
  | other
  deriving DecidableEq

inductive Cmd
  | getlk
  | setlk
  | setlkw
  deriving DecidableEq

inductive Reply
  | err (e : Errno)
  /-- The caller is put to sleep and the call made again. -/
  | block
  /-- `F_GETLK` returns 0 after writing this lock, or `F_UNLCK`. -/
  | report (l : Option RecLock)
  /-- Nothing to contend over. -/
  | free
  /-- The range was set or cleared. -/
  | done (owner : Owner) (r : Request)
  deriving DecidableEq

def ownerOf (tgid : Int) (f : FileFd) (ofdCmd : Bool) : Owner :=
  if ofdCmd then .ofd f.ofd else .process tgid

/-- `fcntl_lock` on a regular file, once its key has been looked up. -/
def lockFile (t : FileLocks) (tgid : Int) (f : FileFd) (key : Option FileKey) (cmd : Cmd)
    (ofdCmd : Bool) (arg : Option FlockArg) (pos size : Nat) : Reply × FileLocks :=
  match key with
  | none => (.err .ebadf, t)
  | some key =>
    match readFlock arg pos size with
    | .error e => (.err e, t)
    | .ok r =>
      let owner := ownerOf tgid f ofdCmd
      let hit := t.conflict key owner (r.typ = .wrlck) r.start r.stop
      if ofdCmd ∧ r.pid ≠ 0 then (.err .einval, t)
      else if cmd = .getlk then
        if r.typ = .unlck then (.err .einval, t) else (.report hit, t)
      else if (r.typ = .rdlck ∧ ¬f.readable) ∨ (r.typ = .wrlck ∧ ¬f.writable) then
        (.err .ebadf, t)
      else if r.typ ≠ .unlck ∧ hit.isSome then
        (if cmd = .setlkw then .block else .err .eagain, t)
      else
        (.done owner r, t.set key owner r.typ r.start r.stop (if ofdCmd then -1 else tgid))

inductive FlockOp
  | sh
  | ex
  | un
  deriving DecidableEq

/-- `sys_flock` on a regular file; `none` where the caller waits or is to try again. -/
def FileLocks.flock (t : FileLocks) (key : FileKey) (ofd : Nat) (op : FlockOp) :
    Option FileLocks :=
  let others := (t.flocks key).filter fun l => l.ofd ≠ ofd
  let put v := { t with flocks := fun k => if k = key then v else t.flocks k }
  match op with
  | .un => some (put others)
  | _ =>
    let exclusive := op = .ex
    if (t.flocks key).any fun l => l.ofd ≠ ofd && (exclusive || l.exclusive) then none
    else some (put (others ++ [⟨ofd, exclusive⟩]))

/-- `release_fd_locks`: the process's locks on the file, and the description's if this was its last
descriptor. -/
def FileLocks.releaseFd (t : FileLocks) (key : Option FileKey) (tgid : Int) (ofd : Nat)
    (last : Bool) : FileLocks :=
  t.dropWhere key
    (fun l => l.owner = .process tgid || (last && l.owner = .ofd ofd))
    (fun l => last && l.ofd = ofd)

def FileLocks.releaseProcess (t : FileLocks) (tgid : Int) : FileLocks :=
  t.dropWhere none (fun l => l.owner = .process tgid) (fun _ => false)

/-! ### The machine -/

inductive Event
  | set (owner : Owner) (file : FileKey) (mode : Option Bool) (start stop : Nat)
  /-- A process closed a descriptor of the file, the description's last or not. -/
  | closed (tgid : Int) (ofd : Nat) (last : Bool) (file : FileKey)
  | exited (tgid : Int)
  deriving DecidableEq

structure Sys where
  names : String → Option FileKey
  fds : List (Option Fd)
  locks : FileLocks
  events : List Event

def Sys.init : Sys := ⟨fun _ => none, [], .empty, []⟩

inductive Op
  /-- A path comes to name a file: created, copied up, or on a file system mounted over it. -/
  | bind (path : String) (file : FileKey)
  /-- A path comes to name nothing: another file system is mounted over it, or the file was
  removed. -/
  | hide (path : String)
  /-- A rename, which descriptors follow. Unlinking an open file renames it to a hidden name. -/
  | rename (source target : String)
  | openFile (path : String) (ofd : Nat) (readable writable : Bool)
  | openOther
  /-- `dup`, `fork`, or a descriptor passed on. -/
  | dup (fd : Nat)
  | fcntl (tgid : Int) (fd : Nat) (cmd : Cmd) (ofdCmd : Bool) (arg : Option FlockArg)
      (pos size : Nat)
  | flock (fd : Nat) (op : FlockOp)
  | close (tgid : Int) (fd : Nat)
  /-- The last task of a thread group is gone; it closed its descriptors before. -/
  | exit (tgid : Int)

def Fd.ofd? : Fd → Option Nat
  | .file f => some f.ofd
  | .other => none

def Fd.repoint (source target : String) : Fd → Fd
  | .file f => .file (if f.path = source then { f with path := target } else f)
  | .other => .other

def Sys.refs (s : Sys) (ofd : Nat) : Nat :=
  s.fds.countP fun d => d.bind Fd.ofd? = some ofd

def Sys.fd? (s : Sys) (i : Nat) : Option Fd := (s.fds[i]?).join

def Sys.lock (s : Sys) (tgid : Int) (f : FileFd) (cmd : Cmd) (ofdCmd : Bool)
    (arg : Option FlockArg) (pos size : Nat) : Sys :=
  match lockFile s.locks tgid f (s.names f.path) cmd ofdCmd arg pos size with
  | (.done owner r, t) =>
    { s with locks := t, events := .set owner f.file r.typ.mode r.start r.stop :: s.events }
  | (_, t) => { s with locks := t }

def Sys.closeFile (s : Sys) (tgid : Int) (f : FileFd) (i : Nat) : Sys :=
  let last := s.refs f.ofd = 1
  { s with
    fds := s.fds.set i none
    locks := s.locks.releaseFd (s.names f.path) tgid f.ofd last
    events := .closed tgid f.ofd last f.file :: s.events }

def Sys.step (s : Sys) : Op → Option Sys
  | .bind path file => some { s with names := fun p => if p = path then some file else s.names p }
  | .hide path => some { s with names := fun p => if p = path then none else s.names p }
  | .rename source target =>
    some { s with
      names := fun p =>
        if p = target then s.names source else if p = source then none else s.names p
      fds := s.fds.map (Option.map (Fd.repoint source target)) }
  | .openFile path ofd readable writable =>
    match s.names path with
    | some file =>
      -- the identity of a description is its address, not one in use
      if s.refs ofd = 0 then
        some { s with fds := s.fds ++ [some (.file ⟨path, ofd, readable, writable, file⟩)] }
      else none
    | none => none
  | .openOther => some { s with fds := s.fds ++ [some .other] }
  | .dup i => (s.fd? i).map fun d => { s with fds := s.fds ++ [some d] }
  | .fcntl tgid i cmd ofdCmd arg pos size =>
    match s.fd? i with
    | some (.file f) => some (s.lock tgid f cmd ofdCmd arg pos size)
    | some .other => some s
    | none => none
  | .flock i op =>
    match s.fd? i with
    | some (.file f) =>
      match s.names f.path with
      | some key => some { s with locks := (s.locks.flock key f.ofd op).getD s.locks }
      | none => some s
    | some .other => some s
    | none => none
  | .close tgid i =>
    match s.fd? i with
    | some (.file f) => some (s.closeFile tgid f i)
    | some .other => some { s with fds := s.fds.set i none }
    | none => none
  | .exit tgid =>
    some { s with locks := s.locks.releaseProcess tgid, events := .exited tgid :: s.events }

inductive Closing
  | close (fd : Nat)
  /-- `execve`, with the descriptors marked close-on-exec. -/
  | exec (fds : List Nat)
  /-- A task ends, with its table's descriptors if no other task shares it. -/
  | exit (fds : List Nat) (lastTask : Bool)
  /-- A group ends, with the tables of its tasks. -/
  | exitGroup (siblings fds : List Nat)

def Closing.fds : Closing → List Nat
  | .close fd => [fd]
  | .exec fds | .exit fds _ | .exitGroup _ fds => fds

def Closing.siblings : Closing → List Nat
  | .exitGroup siblings _ => siblings
  | _ => []

def Closing.endsGroup : Closing → Bool
  | .exit _ lastTask => lastTask
  | .exitGroup _ _ => true
  | _ => false

/-- Empty slots of the tables, with only `bump_pipe` for what was in them. -/
def Sys.drain (s : Sys) (fds : List Nat) : Sys :=
  { s with fds := fds.foldl (fun v i => v.set i none) s.fds }

def Sys.closeAll (s : Sys) (tgid : Int) (fds : List Nat) : Option Sys :=
  Run.exec Sys.step (fds.map (.close tgid)) s

def Sys.closing (s : Sys) (tgid : Int) (c : Closing) : Option Sys :=
  ((s.drain c.siblings).closeAll tgid c.fds).bind fun s =>
    if c.endsGroup then s.step (.exit tgid) else some s

abbrev Sys.Reach (can : Sys → Op → Prop) (s : Sys) : Prop := Run.Reach Sys.step can Sys.init s

end NixVm.Fcntl
