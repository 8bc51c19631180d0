/-
Waiting for descriptors (`src/kernel/poll.rs`): the deadlines of `poll`, `select` and their kin,
and edge-triggered `epoll`.

A wait that finds nothing ready parks, and is run again from the start by any wake-up. The deadline
it set on the first run is what tells a later run that the time is up.

`issued`, `returns` and `fresh` are not fields of the source.
-/
import NixVm.Kernel.Errno
import NixVm.Lib.Run

namespace NixVm.Poll

/-! ### Deadlines -/

/-- A `timespec`, or `timeval`, as the guest wrote it. -/
structure Timespec where
  sec : BitVec 64
  sub : BitVec 64
  deriving DecidableEq

inductive Wait
  | poll (ms : Int)
  | ppoll (ts : Option Timespec)
  | select (tv : Option Timespec)
  | pselect6 (ts : Option Timespec)
  | epollWait (ms : Int)
  | epollPwait (ms : Int)
  | epollPwait2 (ts : Option Timespec)
  deriving DecidableEq

def u64Max : Nat := 2 ^ 64 - 1
def i64Max : Nat := 2 ^ 63 - 1

/-- Whole milliseconds: the multiplication saturates, the sum wraps. -/
def timespecToMs (ts : Timespec) : Int :=
  let ms := (min (ts.sec.toNat * 1000) u64Max + ts.sub.toNat / 1000000) % 2 ^ 64
  if ms = 0 ∧ 0 < ts.sub.toNat then 1 else (min ms i64Max : Nat)

inductive Scan
  | fault (e : Errno)
  | nothing
  /-- One more than so many are ready. -/
  | ready (n : Nat)
  deriving DecidableEq

inductive Result
  | err (e : Errno)
  | count (n : Nat)
  deriving DecidableEq

inductive Attempt
  | park (deadline : Option Nat)
  | done (r : Result)
  deriving DecidableEq

/-- `block_or_timeout`; the callers return 0 unless they park. -/
def blockOrTimeout (now : Nat) (deadline : Option Nat) (ms : Int) : Attempt :=
  if ms = 0 then .done (.count 0)
  else if ms < 0 then .park deadline
  else
    match deadline with
    | some dl => if dl ≤ now then .done (.count 0) else .park (some dl)
    | none => .park (some (now + ms.toNat * 1000000))

def pollCore (now : Nat) (deadline : Option Nat) (ms : Int) : Scan → Attempt
  | .fault e => .done (.err e)
  | .ready n => .done (.count (n + 1))
  | .nothing => blockOrTimeout now deadline ms

def selectCore (deadline : Option Nat) (immediate : Bool) : Scan → Attempt
  | .fault e => .done (.err e)
  | .ready n => .done (.count (n + 1))
  | .nothing => if immediate then .done (.count 0) else .park deadline

def msOf : Option Timespec → Int
  | none => -1
  | some ts => timespecToMs ts

def immediate : Option Timespec → Bool
  | none => false
  | some ts => ts.sec = 0 && ts.sub = 0

def Wait.attempt (w : Wait) (now : Nat) (deadline : Option Nat) (scan : Scan) : Attempt :=
  match w with
  | .poll ms | .epollWait ms | .epollPwait ms => pollCore now deadline ms scan
  | .ppoll ts | .epollPwait2 ts => pollCore now deadline (msOf ts) scan
  | .select tv => selectCore deadline (immediate tv) scan
  | .pselect6 ts => selectCore deadline (immediate ts) scan

/-- How long to wait, in nanoseconds; for ever if `none`. -/
def Wait.timeout : Wait → Option Nat
  | .poll ms | .epollWait ms | .epollPwait ms => if ms < 0 then none else some (ms.toNat * 1000000)
  | .ppoll ts | .pselect6 ts | .epollPwait2 ts =>
    ts.map fun ts => ts.sec.toNat * 1000000000 + ts.sub.toNat
  | .select tv => tv.map fun tv => tv.sec.toNat * 1000000000 + tv.sub.toNat * 1000

structure Issued where
  wait : Wait
  made : Nat
  deriving DecidableEq

structure Returned where
  call : Issued
  now : Nat
  result : Result
  deriving DecidableEq

structure Task where
  now : Nat
  wakeDeadline : Option Nat
  parked : Option Issued
  returns : List Returned

def Task.init : Task := ⟨0, none, none, []⟩

/-- One run of a call by `service`. A call that would park while a handled signal is pending fails.
-/
def Task.run (t : Task) (c : Issued) (scan : Scan) (signalled : Bool) : Task :=
  match c.wait.attempt t.now t.wakeDeadline scan with
  | .done r => { t with wakeDeadline := none, parked := none, returns := ⟨c, t.now, r⟩ :: t.returns }
  | .park dl =>
    if signalled then
      { t with
        wakeDeadline := none, parked := none, returns := ⟨c, t.now, .err .eintr⟩ :: t.returns }
    else { t with wakeDeadline := dl, parked := some c }

inductive TaskOp
  /-- Time passes. -/
  | tick (ns : Nat)
  | issue (w : Wait) (scan : Scan) (signalled : Bool)
  /-- Something woke the task, and the call it is parked in is run again. -/
  | rerun (scan : Scan) (signalled : Bool)

def Task.step (t : Task) : TaskOp → Option Task
  | .tick ns => some { t with now := t.now + ns }
  | .issue w scan signalled =>
    match t.parked with
    | some _ => none
    | none => some (t.run ⟨w, t.now⟩ scan signalled)
  | .rerun scan signalled => t.parked.map fun c => t.run c scan signalled

/-! ### Edges -/

/-- What `epoll` watches. -/
inductive File
  /-- The read end of a pipe: bytes held, and write ends open. -/
  | pipe (len writers : Nat)
  /-- An end of a stream pair: bytes to read, no more will come, room to write, the peer is gone.
  -/
  | socket (len : Nat) (ended room peerClosed : Bool)
  | eventfd (count : Nat) (semaphore : Bool)
  deriving DecidableEq

def bit (b : Bool) (m : BitVec 32) : BitVec 32 := if b then m else 0

/-- `fd_ready`: `POLLIN` 1, `POLLOUT` 4, `POLLHUP` 0x10. -/
def File.ready : File → BitVec 32
  | .pipe len writers => if 0 < len then 0x1 else if writers = 0 then 0x10 else 0
  | .socket len ended room peerClosed =>
    bit (0 < len || ended) 0x1 ||| bit room 0x4 ||| bit peerClosed 0x10
  | .eventfd count _ => 0x4 ||| bit (0 < count) 0x1

structure Watch where
  fd : Nat
  events : BitVec 32
  lastLevel : Nat
  disarmed : Bool
  deriving DecidableEq

def Watch.edge (w : Watch) : Bool := w.events &&& 0x80000000 ≠ 0
def Watch.oneshot (w : Watch) : Bool := w.events &&& 0x40000000 ≠ 0

def Watch.readiness (w : Watch) (f : Option File) : BitVec 32 :=
  (match f with
    | some f => f.ready
    | none => 0x20) &&& (w.events ||| 0x8 ||| 0x10)

def Watch.level (w : Watch) (f : Option File) : Nat :=
  match f with
  | some (.eventfd count _) => count
  | _ => (w.readiness f).toNat

def Watch.delivers (w : Watch) (f : Option File) : Bool :=
  w.readiness f ≠ 0 && (!w.edge || w.level f ≠ w.lastLevel)

def Watch.seen (w : Watch) (f : Option File) : Watch :=
  if w.edge then { w with lastLevel := w.level f } else w

structure Epoll where
  files : Nat → Option File
  /-- In order of descriptors. -/
  watches : List Watch
  fresh : Nat → Nat

def Epoll.init : Epoll := ⟨fun _ => none, [], fun _ => 0⟩

/-- The loop of `epoll_wait`. It stops when `room` events are stored, or one cannot be. -/
def scan (files : Nat → Option File) : Nat → Nat → List Watch → List Watch × List Nat
  | _, _, [] => ([], [])
  | 0, _, ws => (ws, [])
  | room + 1, writable, w :: ws =>
    if w.disarmed || !w.delivers (files w.fd) then
      let r := scan files (room + 1) writable ws
      ((if w.disarmed then w else w.seen (files w.fd)) :: r.1, r.2)
    else
      match writable with
      | 0 => (w.seen (files w.fd) :: ws, [])
      | writable + 1 =>
        let r := scan files room writable ws
        let w' := w.seen (files w.fd)
        ((if w.oneshot then { w' with disarmed := true } else w') :: r.1, w.fd :: r.2)

/-- Add bytes, or to a counter; `none` where there is no room. -/
def File.put (f : File) (n : Nat) : Option File :=
  match f with
  | .pipe len writers => some (.pipe (len + n) writers)
  | .socket len ended room peerClosed => some (.socket (len + n) ended room peerClosed)
  | .eventfd count semaphore => if count + n < u64Max then some (.eventfd (count + n) semaphore) else none

def File.take (f : File) (n : Nat) : File :=
  match f with
  | .pipe len writers => .pipe (len - n) writers
  | .socket len ended room peerClosed => .socket (len - n) ended room peerClosed
  | .eventfd count semaphore => .eventfd (if semaphore then count - 1 else 0) semaphore

def File.amount : File → Nat
  | .pipe len _ | .socket len _ _ _ => len
  | .eventfd count _ => count

inductive EpollOp
  | openFile (fd : Nat) (f : File)
  /-- An end is closed or shut down, or there is room. -/
  | change (fd : Nat) (f : File)
  | put (fd n : Nat)
  | take (fd n : Nat)
  | add (fd : Nat) (events : BitVec 32)
  | modify (fd : Nat) (events : BitVec 32)
  | delete (fd : Nat)
  | wait (maxevents writable : Nat)

def File.sameData : File → File → Bool
  | .pipe len _, .pipe len' _ => len = len'
  | .socket len .., .socket len' .. => len = len'
  | .eventfd count sem, .eventfd count' sem' => count = count' && sem = sem'
  | _, _ => false

def Epoll.setFile (s : Epoll) (fd : Nat) (f : File) : Epoll :=
  { s with files := fun k => if k = fd then some f else s.files k }

def Epoll.setFresh (s : Epoll) (fd n : Nat) : Epoll :=
  { s with fresh := fun k => if k = fd then n else s.fresh k }

def Epoll.reports (s : Epoll) (maxevents writable : Nat) : List Nat :=
  (scan s.files maxevents writable s.watches).2

def insertWatch (w : Watch) : List Watch → List Watch
  | [] => [w]
  | v :: ws => if w.fd < v.fd then w :: v :: ws else v :: insertWatch w ws

def Epoll.step (s : Epoll) : EpollOp → Option Epoll
  | .openFile fd f =>
    match s.files fd with
    | some _ => none
    | none => some ((s.setFile fd f).setFresh fd 0)
  | .change fd f => (s.files fd).bind fun g => if f.sameData g then some (s.setFile fd f) else none
  | .put fd n =>
    if n = 0 then none
    else ((s.files fd).bind fun f => f.put n).map fun f =>
      (s.setFile fd f).setFresh fd (s.fresh fd + n)
  | .take fd n => (s.files fd).map fun f =>
    (s.setFile fd (f.take n)).setFresh fd (min (s.fresh fd) (f.take n).amount)
  | .add fd events =>
    if s.watches.any fun w => w.fd = fd then none
    else some { s with watches := insertWatch ⟨fd, events, 0, false⟩ s.watches }
  | .modify fd events =>
    some { s with
      watches := s.watches.map fun w => if w.fd = fd then ⟨fd, events, 0, false⟩ else w }
  | .delete fd => some { s with watches := s.watches.filter fun w => w.fd ≠ fd }
  | .wait maxevents writable =>
    if maxevents = 0 then none
    else
      some { s with
        watches := (scan s.files maxevents writable s.watches).1
        fresh := fun k => if k ∈ s.reports maxevents writable then 0 else s.fresh k }

end NixVm.Poll
