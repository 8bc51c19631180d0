/-
Reading from a pipe (`src/kernel/mod.rs`, `read_pipe` and `sys_readv`; `src/kernel/splice.rs`).

A call that cannot finish sets `cx.block` and is run again from the start later, so what it
returned is dropped; a call interrupted by a signal handler is run again or fails. Either way
nothing is handed to the guest: that is `park` here.
-/
import NixVm.Kernel.Errno

namespace NixVm.Pipes

abbrev Byte := BitVec 8

structure Pipe where
  buf : List Byte
  readers : Nat
  writers : Nat
  readNonblock : Bool
  writeNonblock : Bool
  capacity : Nat

/-- A buffer of the guest: its length, and how much of it can be written. -/
structure Buffer where
  len : Nat
  fits : Nat

inductive Reply
  | park
  | err (e : Errno)
  | ret (n : Nat)
  deriving DecidableEq

abbrev Outcome := Reply × Pipe × List Byte

/-- Take `n` bytes off the front. -/
def Pipe.drain (p : Pipe) (n : Nat) : Pipe := { p with buf := p.buf.drop n }

def Pipe.whenEmpty (p : Pipe) (nonblock : Bool) : Reply :=
  if p.writers = 0 then .ret 0
  else if nonblock || p.readNonblock then .err .eagain
  else .park

/-- `read_pipe`. The bytes leave the pipe before they are stored. -/
def Pipe.read (p : Pipe) (b : Buffer) : Outcome :=
  if p.buf = [] then (p.whenEmpty false, p, [])
  else
    let n := min b.len p.buf.length
    if n ≤ b.fits then (.ret n, p.drain n, p.buf.take n)
    else (.err .efault, p.drain n, [])

/-- The loop of `sys_readv` over a pipe. `none` is an entry that cannot be read. -/
def Pipe.readvFrom : List (Option Buffer) → List Byte → Pipe → Outcome
  | [], got, p => (.ret got.length, p, got)
  | none :: _, got, p => if 0 < got.length then (.ret got.length, p, got) else (.err .efault, p, [])
  | some b :: rest, got, p =>
    if b.len = 0 then Pipe.readvFrom rest got p
    else
      match p.read b with
      | (.err e, p, _) => if 0 < got.length then (.ret got.length, p, got) else (.err e, p, [])
      -- an empty pipe sets the flag that parks the call, whatever it got before
      | (.park, p, _) => (.park, p, [])
      | (.ret n, p, data) =>
        if n < b.len then (.ret (got ++ data).length, p, got ++ data)
        else Pipe.readvFrom rest (got ++ data) p

def Pipe.readv (p : Pipe) (iov : List (Option Buffer)) : Outcome := Pipe.readvFrom iov [] p

/-- Where a `splice` out of the pipe goes, and what that side does. -/
inductive Sink
  /-- Another pipe, with so much room; whether it has readers and may block. -/
  | pipe (room : Nat) (readers : Bool) (nonblock : Bool)
  /-- A file: how much of the data it takes, or why not. -/
  | file (write : (n : Nat) → Except Errno (Fin (n + 1)))
  /-- A stream socket: how much it takes before it parks, if it does. -/
  | socket (room : Nat) (mayPark : Bool)
  /-- Standard output or error: whether it takes the data. -/
  | stdio (ok : Bool)

def Pipe.splice (p : Pipe) (len : Nat) (nonblock : Bool) : Sink → Outcome
  | .pipe room readers outNonblock =>
    if p.buf = [] then (p.whenEmpty nonblock, p, [])
    else if !readers then (.err .epipe, p, [])
    else if room = 0 then (if outNonblock || nonblock then .err .eagain else .park, p, [])
    else
      let n := min (min len p.buf.length) room
      (.ret n, p.drain n, p.buf.take n)
  | .file write =>
    if p.buf = [] then (p.whenEmpty nonblock, p, [])
    else
      match write (min len p.buf.length) with
      | .error e => (.err e, p, [])
      | .ok w => (.ret w, p.drain w, p.buf.take w)
  | .socket room mayPark =>
    if p.buf = [] then (p.whenEmpty nonblock, p, [])
    else
      let n := min len p.buf.length
      if n ≤ room then (.ret n, p.drain n, p.buf.take n)
      -- it parks with `room` bytes sent; a signal can turn that into a short count,
      -- which is returned without the pipe having been drained
      else if mayPark then (if room = 0 then .park else .ret room, p, p.buf.take room)
      else if room = 0 then (.err .eagain, p, [])
      else (.ret room, p.drain room, p.buf.take room)
  | .stdio ok =>
    if p.buf = [] then (p.whenEmpty nonblock, p, [])
    else
      let n := min len p.buf.length
      if ok then (.ret n, p.drain n, p.buf.take n) else (.err .eio, p.drain n, [])

/-- A pipe, everything ever written to it, and everything ever handed out. -/
structure State where
  pipe : Pipe
  written : List Byte
  handed : List Byte

inductive Op
  | write (data : List Byte)
  /-- Ends, flags and capacity change. -/
  | adjust (readers writers : Nat) (readNonblock writeNonblock : Bool) (capacity : Nat)
  | read (b : Buffer)
  | readv (iov : List (Option Buffer))
  | splice (len : Nat) (nonblock : Bool) (sink : Sink)

def Op.outcome (p : Pipe) : Op → Outcome
  | .write data => (.ret 0, { p with buf := p.buf ++ data }, [])
  | .adjust readers writers rn wn capacity =>
    (.ret 0, ⟨p.buf, readers, writers, rn, wn, capacity⟩, [])
  | .read b => p.read b
  | .readv iov => p.readv iov
  | .splice len nonblock sink => p.splice len nonblock sink

def Op.input : Op → List Byte
  | .write data => data
  | _ => []

def State.step (s : State) (op : Op) : State :=
  ⟨(op.outcome s.pipe).2.1, s.written ++ op.input, s.handed ++ (op.outcome s.pipe).2.2⟩

def State.init : State := ⟨⟨[], 1, 1, false, false, 65536⟩, [], []⟩

def State.Next (can : Pipe → Op → Prop) (s s' : State) : Prop :=
  ∃ op, can s.pipe op ∧ s.step op = s'

end NixVm.Pipes
