/-
Writing to a pipe or a connected stream socket (`src/kernel/mod.rs`, `pipe_write_from` and
`sys_writev`; `src/kernel/net.rs`, `write_socket`).

A write that does not fit parks, and is run again from the start later. How far it got is one
number of the task, `io_progress`: a later attempt goes on from there, whichever call makes it. A
call interrupted by a handler returns what it has done or is run again after it, and the handler
can make calls of its own meanwhile.
-/
import NixVm.Kernel.Pipe
import NixVm.Lib.Run

namespace NixVm.Writes

open Pipes (Byte Reply)

def pipeAtomicWrite : Nat := 4096

inductive Kind
  | pipe
  | pair
  deriving DecidableEq

/-- One direction of a pipe or socket pair. `live`: there is a reader, and no shutdown. -/
structure Stream where
  kind : Kind
  buf : List Byte
  capacity : Nat
  live : Bool
  nonblock : Bool

def Stream.room (s : Stream) : Nat := s.capacity - s.buf.length

inductive Form
  | write
  | writev
  /-- `sendto` or `sendmsg`, and whether `MSG_DONTWAIT` is set. -/
  | send (dontwait : Bool)
  deriving DecidableEq

structure Call where
  fd : Nat
  form : Form
  iov : List (List Byte)

def Call.data (c : Call) : List Byte := c.iov.flatten

/-- What an attempt finds: an error before anything is done, and the first segment that cannot be
read. -/
structure Env where
  early : Option Errno
  bad : Option Nat

structure Attempt where
  reply : Reply
  io : Nat
  bytes : List Byte

def Stream.pipeWriteFrom (s : Stream) (io : Nat) (data : List Byte) (readable : Bool) : Attempt :=
  if !s.live then ⟨if 0 < io then .ret io else .err .epipe, 0, []⟩
  else
    let remaining := data.length - io
    let n := if remaining ≤ pipeAtomicWrite ∧ s.room < remaining then 0 else min remaining s.room
    if !readable then ⟨if 0 < io then .ret io else .err .efault, 0, []⟩
    else if data.length ≤ io + n then ⟨.ret data.length, 0, (data.drop io).take n⟩
    else if s.nonblock then
      ⟨if 0 < io + n then .ret (io + n) else .err .eagain, 0, (data.drop io).take n⟩
    else ⟨.park, io + n, (data.drop io).take n⟩

def Stream.writeSocket (s : Stream) (io : Nat) (data : List Byte) (dontwait : Bool) : Attempt :=
  if !s.live then ⟨.err .epipe, 0, []⟩
  else
    let done := min io data.length
    let n := min s.room (data.length - done)
    if done + n = data.length then ⟨.ret (done + n), 0, (data.drop done).take n⟩
    else if s.nonblock || dontwait then
      ⟨if 0 < done + n then .ret (done + n) else .err .eagain, 0, (data.drop done).take n⟩
    else ⟨.park, done + n, (data.drop done).take n⟩

/-- The loop of `sys_writev` on a socket. `total` is what it will return, `acc` what was appended.
-/
def Stream.writevSocket (s : Stream) :
    List (List Byte) → Option Nat → Nat → Nat → List Byte → Attempt
  | [], _, io, total, acc => ⟨.ret total, io, acc⟩
  | _ :: _, some 0, io, total, acc => ⟨if 0 < total then .ret total else .err .efault, io, acc⟩
  | seg :: rest, bad, io, total, acc =>
    if seg = [] then s.writevSocket rest (bad.map (· - 1)) io total acc
    else
      let a := { s with buf := s.buf ++ acc }.writeSocket io seg false
      match a.reply with
      | .err e => ⟨if 0 < total then .ret total else .err e, a.io, acc ++ a.bytes⟩
      | .park => ⟨.park, a.io, acc ++ a.bytes⟩
      | .ret n =>
        if n < seg.length then ⟨.ret (total + n), a.io, acc ++ a.bytes⟩
        else s.writevSocket rest (bad.map (· - 1)) a.io (total + n) (acc ++ a.bytes)

def Env.gather (env : Env) (io : Nat) (a : Attempt) : Attempt :=
  if env.bad.isSome then ⟨.err .efault, io, []⟩ else a

def Stream.attempt (s : Stream) (io : Nat) (c : Call) (env : Env) : Attempt :=
  match env.early with
  | some e => ⟨.err e, io, []⟩
  | none =>
    match s.kind, c.form with
    | .pipe, .write => s.pipeWriteFrom io c.data env.bad.isNone
    | .pipe, .writev => env.gather io (s.pipeWriteFrom io c.data true)
    | .pipe, .send _ => ⟨.err .enotsock, io, []⟩
    | .pair, .write => env.gather io (s.writeSocket io c.data false)
    | .pair, .writev => s.writevSocket c.iov env.bad io 0 []
    | .pair, .send dontwait => env.gather io (s.writeSocket io c.data dontwait)

inductive After
  | wait
  /-- A handler without `SA_RESTART` runs: the call is over. -/
  | interrupt
  /-- A handler with `SA_RESTART` runs, and the call is made again after it. -/
  | restart
  /-- The socket's `SO_SNDTIMEO` has passed. -/
  | timeout
  deriving DecidableEq

/-- A call under way, and what its attempts have appended to its stream. -/
structure Pending where
  call : Call
  log : List Byte

structure Finished where
  call : Call
  log : List Byte
  reply : Reply

/-- `current` is the call the task is parked in; `suspended` those to be made again, the innermost
first. -/
structure State where
  streams : Nat → Stream
  io : Nat
  current : Option Pending
  suspended : List Pending
  finished : List Finished

def State.setStream (s : State) (fd : Nat) (st : Stream) : State :=
  { s with streams := fun fd' => if fd' = fd then st else s.streams fd' }

/-- `apply_sock_timeout` is applied to these calls. -/
def Form.timed : Form → Bool
  | .writev => false
  | _ => true

/-- An attempt at a call that is neither parked nor suspended. -/
def State.make (s : State) (w : Pending) (env : Env) (after : After) : State :=
  let st := s.streams w.call.fd
  let a := st.attempt s.io w.call env
  let log := w.log ++ a.bytes
  let s := { s.setStream w.call.fd { st with buf := st.buf ++ a.bytes } with io := a.io }
  match a.reply with
  | .ret n => { s with finished := ⟨w.call, log, .ret n⟩ :: s.finished }
  | .err e => { s with finished := ⟨w.call, log, .err e⟩ :: s.finished }
  | .park =>
    match after with
    | .wait => { s with current := some ⟨w.call, log⟩ }
    | .restart => { s with suspended := ⟨w.call, log⟩ :: s.suspended }
    | .interrupt =>
      let reply := if 0 < a.io then .ret a.io else .err .eintr
      { s with io := 0, finished := ⟨w.call, log, reply⟩ :: s.finished }
    | .timeout =>
      if st.kind = .pair ∧ w.call.form.timed then
        { s with finished := ⟨w.call, log, .err .eagain⟩ :: s.finished }
      else { s with current := some ⟨w.call, log⟩ }

inductive Op
  /-- The task makes a call, from its program or from a handler. -/
  | start (c : Call) (env : Env) (after : After)
  | rerun (env : Env) (after : After)
  /-- A handler returns, and the call it interrupted is run again. -/
  | resume (env : Env) (after : After)
  /-- A handler leaves without returning. -/
  | abandon
  /-- A call of another kind is interrupted while it waits. -/
  | other
  /-- Others use the stream. -/
  | adjust (fd : Nat) (buf : List Byte) (capacity : Nat) (live nonblock : Bool)

def State.step (s : State) : Op → Option State
  | .start c env after =>
    match s.current with
    | some _ => none
    | none => some (s.make ⟨c, []⟩ env after)
  | .rerun env after =>
    match s.current with
    | some w => some ({ s with current := none }.make w env after)
    | none => none
  | .resume env after =>
    match s.current, s.suspended with
    | none, w :: rest => some ({ s with suspended := rest }.make w env after)
    | _, _ => none
  | .abandon =>
    match s.current, s.suspended with
    | none, _ :: rest => some { s with suspended := rest }
    | _, _ => none
  -- the progress is taken for that of the interrupted call
  | .other => some { s with io := 0 }
  | .adjust fd buf capacity live nonblock =>
    some (s.setStream fd ⟨(s.streams fd).kind, buf, capacity, live, nonblock⟩)

def State.init (streams : Nat → Stream) : State := ⟨streams, 0, none, [], []⟩

/-- The runs of a task whose operations meet the condition `can`. -/
abbrev State.Reach (can : State → Op → Prop) : State → State → Prop := Run.Reach State.step can

end NixVm.Writes
