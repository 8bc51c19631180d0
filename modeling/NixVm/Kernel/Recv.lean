/-
Receiving from a socket (`src/kernel/net.rs`, `sys_recvfrom`, `sys_recvmsg`, `sys_recvmmsg`).

A receive with nothing to receive sets `cx.block` and is run again from its arguments later. The
arguments of `recvmsg` are in the guest's memory: the `msghdr` is read at the start of an attempt
and written at the end of it, whether or not the attempt parks.
-/
import NixVm.Kernel.Pipe

namespace NixVm.Recv

open Pipes (Byte Buffer Reply)

structure InetAddr where
  v6 : Bool
  port : BitVec 16
  ip : BitVec 128
  deriving DecidableEq

inductive Domain
  | inet
  | inet6
  | netlink
  | unix
  deriving DecidableEq

structure Flags where
  dontwait : Bool
  peek : Bool
  waitall : Bool
  trunc : Bool
  deriving DecidableEq

/-- One end of a pair: the bytes for it, and the descriptors that ride on them. -/
structure Pair (F : Type) where
  toEnd : List Byte
  scm : List (Nat × List F)
  shutRd : Bool
  peerOpen : Bool
  nonblock : Bool
  peer : Option InetAddr
  deriving DecidableEq

inductive Conn
  | quiet
  | bytes (data : List Byte)
  | eof
  | broken
  deriving DecidableEq

inductive Sock (F : Type)
  | netlink (queue : List (List Byte)) (nonblock : Bool)
  | dgram (queue : List (InetAddr × List Byte)) (nonblock : Bool)
  | host (conn : Conn) (peer : InetAddr) (nonblock : Bool)
  | pair (p : Pair F)
  /-- A socket that is not connected. -/
  | other
  deriving DecidableEq

/-- A `struct mmsghdr`: the fields of `msghdr`, and `msg_len`. -/
structure Hdr where
  name : Nat
  namelen : Nat
  /-- The entries of the iovec list, `none` where one cannot be read. -/
  iov : List (Option Buffer)
  control : Nat
  controllen : Nat
  truncated : Bool
  ctruncated : Bool
  len : Nat

structure Msg (F : Type) where
  src : Option InetAddr
  data : List Byte
  truncated : Bool
  fds : List F

variable {F : Type}

/-- The message or an error, whether the call parks, and the socket. -/
structure Got (F : Type) where
  res : Except Errno (Msg F)
  block : Bool
  sock : Sock F

/-! ### The sockets -/

/-- `drain_netlink`: whole messages as they fit. -/
def drainNetlink (want : Nat) : List (List Byte) → List Byte → List Byte × List (List Byte)
  | [], out => (out, [])
  | next :: rest, out =>
    if out = [] ∧ want < next.length then (next.take want, rest)
    else if want < out.length + next.length then (out, next :: rest)
    else drainNetlink want rest (out ++ next)

/-- `scm_read_len`: stop where the next descriptors ride. -/
def scmReadLen (scm : List (Nat × List F)) (want : Nat) : Nat :=
  match scm with
  | [] => want
  | (0, _) :: [] => want
  | (0, _) :: (next, _) :: _ => min want next
  | (pos, _) :: _ => min want pos

/-- `scm_take`: the descriptors whose bytes are consumed, and the rest. -/
def scmTake (scm : List (Nat × List F)) (n : Nat) : List F × List (Nat × List F) :=
  let taken := scm.takeWhile fun g => g.1 < max n 1
  let rest := scm.dropWhile fun g => g.1 < max n 1
  (taken.flatMap (·.2), rest.map fun g => (g.1 - n, g.2))

/-- Descriptors are ready although no bytes are. -/
def Pair.scmReady (p : Pair F) : Bool :=
  match p.scm with
  | (0, _) :: _ => true
  | _ => false

/-- Nothing to receive: park, or fail if the call must not wait. -/
def Sock.empty (s : Sock F) (nonblock : Bool) (src : Option InetAddr) : Got F :=
  if nonblock then ⟨.error .eagain, false, s⟩ else ⟨.ok ⟨src, [], false, []⟩, true, s⟩

def hostRecv (conn : Conn) (peer : InetAddr) (nonblock : Bool) (cap : Nat) (f : Flags) : Got F :=
  match conn with
  | .quiet => (Sock.host .quiet peer nonblock).empty (nonblock || f.dontwait) (some peer)
  | .bytes data =>
    let n := min cap (256 * 1024)
    ⟨.ok ⟨some peer, data.take n, false, []⟩, false,
      .host (if data.length ≤ n then .quiet else .bytes (data.drop n)) peer nonblock⟩
  | .eof => ⟨.ok ⟨some peer, [], false, []⟩, false, .host .eof peer nonblock⟩
  | .broken => ⟨.error .econnreset, false, .host .broken peer nonblock⟩

def Pair.recvStreamBytes (p : Pair F) (count : Nat) (f : Flags) : Got F :=
  if p.shutRd then ⟨.ok ⟨p.peer, [], false, []⟩, false, .pair p⟩
  else if p.toEnd = [] ∧ ¬p.scmReady then
    if p.peerOpen then (Sock.pair p).empty (p.nonblock || f.dontwait) p.peer
    else ⟨.ok ⟨p.peer, [], false, []⟩, false, .pair p⟩
  else
    let n := scmReadLen p.scm (min count p.toEnd.length)
    if f.peek then ⟨.ok ⟨p.peer, p.toEnd.take n, false, []⟩, false, .pair p⟩
    else ⟨.ok ⟨p.peer, p.toEnd.take n, false, (scmTake p.scm n).1⟩, false,
      .pair { p with toEnd := p.toEnd.drop n, scm := (scmTake p.scm n).2 }⟩

def Sock.recvMessage (s : Sock F) (cap : Nat) (f : Flags) : Got F :=
  match s with
  | .netlink [] nonblock => s.empty (nonblock || f.dontwait) none
  | .netlink queue nonblock =>
    ⟨.ok ⟨none, (drainNetlink cap queue []).1, false, []⟩, false,
      .netlink (drainNetlink cap queue []).2 nonblock⟩
  | .dgram [] nonblock => s.empty (nonblock || f.dontwait) none
  | .dgram ((from_, data) :: rest) nonblock =>
    ⟨.ok ⟨some from_, data.take cap, cap < data.length, []⟩, false,
      .dgram (if f.peek then (from_, data) :: rest else rest) nonblock⟩
  | .host conn peer nonblock => hostRecv conn peer nonblock cap f
  | .pair p => p.recvStreamBytes cap f
  | .other => ⟨.error .einval, false, s⟩

/-- `recv_stream`: here `MSG_WAITALL` counts, and descriptors are dropped. -/
def Pair.recvStream (p : Pair F) (count : Nat) (f : Flags) : Got F :=
  let nonblock := p.nonblock || f.dontwait
  let short :=
    f.waitall && !nonblock && !p.toEnd.isEmpty && decide (p.toEnd.length < count) && p.peerOpen
  if p.shutRd then ⟨.ok ⟨p.peer, [], false, []⟩, false, .pair p⟩
  else if p.toEnd = [] ∨ short then
    if p.peerOpen then (Sock.pair p).empty nonblock p.peer
    else ⟨.ok ⟨p.peer, [], false, []⟩, false, .pair p⟩
  else
    let n := min count p.toEnd.length
    if f.peek then ⟨.ok ⟨p.peer, p.toEnd.take n, false, []⟩, false, .pair p⟩
    else ⟨.ok ⟨p.peer, p.toEnd.take n, false, []⟩, false,
      .pair { p with toEnd := p.toEnd.drop n, scm := (scmTake p.scm n).2 }⟩

/-! ### The calls -/

/-- The value returned, whether it parks, the socket, the headers, and what the guest got. -/
structure Outcome (F : Type) where
  ret : Except Errno Nat
  block : Bool
  sock : Sock F
  hdrs : List (Option Hdr)
  data : List (List Byte)
  fds : List F

def Got.store (g : Got F) (buf : Buffer) (n : Msg F → Nat) : Outcome F :=
  match g.res with
  | .error e => ⟨.error e, g.block, g.sock, [], [], []⟩
  | .ok m =>
    if m.data.length ≤ buf.fits then ⟨.ok (n m), g.block, g.sock, [], [m.data], []⟩
    else ⟨.error .efault, g.block, g.sock, [], [], []⟩

/-- `sys_recvfrom`. With `MSG_TRUNC` it returns the whole length. -/
def recvfrom (s : Sock F) (buf : Buffer) (f : Flags) : Outcome F :=
  match s with
  | .pair p => (p.recvStream buf.len f).store buf (·.data.length)
  | .dgram ((_, data) :: _) _ =>
    (s.recvMessage buf.len f).store buf fun m => if f.trunc then data.length else m.data.length
  | s => (s.recvMessage buf.len f).store buf (·.data.length)

def uioMaxIov : Nat := 1024

def cmsgHdrLen : Nat := 16

/-- The length of the address `write_sockaddr` stores. -/
def addrLen (domain : Domain) : Option InetAddr → Nat
  | some a => if a.v6 then 28 else 16
  | none =>
    match domain with
    | .inet => 16
    | .inet6 => 28
    | .netlink => 12
    | .unix => 2

/-- Scatter a message over the buffers; `none` if one cannot be written. -/
def scatter : List Buffer → List Byte → Option (List Byte)
  | [], _ => some []
  | b :: rest, data =>
    if data = [] then some []
    else if min b.len data.length ≤ b.fits then
      (scatter rest (data.drop b.len)).map (data.take b.len ++ ·)
    else none

def Hdr.fdCapacity (h : Hdr) : Nat :=
  if h.control ≠ 0 ∧ cmsgHdrLen ≤ h.controllen then (h.controllen - cmsgHdrLen) / 4 else 0

/-- The end of `sys_recvmsg`: address, descriptors and flags. -/
def Hdr.fill (h : Hdr) (domain : Domain) (m : Msg F) : Hdr :=
  let deliver := min h.fdCapacity m.fds.length
  { h with
    namelen := if h.name ≠ 0 ∧ 0 < h.namelen then addrLen domain m.src else h.namelen
    controllen := if deliver = 0 then 0 else cmsgHdrLen + 4 * deliver
    truncated := m.truncated
    ctruncated := decide (deliver < m.fds.length) }

/-- The source's `sys_recvmsg` on one header. -/
def recvmsg (domain : Domain) (s : Sock F) (h : Option Hdr) (f : Flags) : Outcome F :=
  match h with
  | none => ⟨.error .efault, false, s, [none], [], []⟩
  | some h =>
    if uioMaxIov < h.iov.length then ⟨.error .emsgsize, false, s, [some h], [], []⟩
    else if h.iov.any (·.isNone) then ⟨.error .efault, false, s, [some h], [], []⟩
    else
      let bufs := h.iov.filterMap id
      let g := s.recvMessage (bufs.map (·.len)).sum f
      match g.res with
      | .error e => ⟨.error e, g.block, g.sock, [some h], [], []⟩
      | .ok m =>
        match scatter bufs m.data with
        | none => ⟨.error .efault, g.block, g.sock, [some h], [], []⟩
        | some stored =>
          ⟨.ok stored.length, g.block, g.sock, [some (h.fill domain m)], [stored],
            m.fds.take h.fdCapacity⟩

/-- The loop of `sys_recvmmsg`. A message that parks counts as one of length zero. -/
def recvmmsgFrom (domain : Domain) (f : Flags) :
    List (Option Hdr) → Nat → Outcome F → Outcome F
  | [], got, out => { out with ret := .ok got }
  | h :: rest, got, out =>
    let o := recvmsg domain out.sock h f
    let block := out.block || o.block
    match o.ret with
    | .error e =>
      ⟨if 0 < got then .ok got else .error e, block, o.sock, out.hdrs ++ o.hdrs ++ rest,
        out.data ++ o.data, out.fds ++ o.fds⟩
    | .ok n =>
      recvmmsgFrom domain f rest (got + 1) ⟨.ok 0, block, o.sock,
        out.hdrs ++ o.hdrs.map (Option.map fun h => { h with len := n }),
        out.data ++ o.data, out.fds ++ o.fds⟩

def recvmmsg (domain : Domain) (s : Sock F) (hs : List (Option Hdr)) (f : Flags) : Outcome F :=
  recvmmsgFrom domain f hs 0 ⟨.ok 0, false, s, [], [], []⟩

inductive Call
  | recvfrom (buf : Buffer) (f : Flags)
  | recvmsg (f : Flags)
  | recvmmsg (f : Flags)

def Call.attempt (domain : Domain) (c : Call) (s : Sock F) (hs : List (Option Hdr)) : Outcome F :=
  match c, hs with
  | .recvfrom buf f, hs => { Recv.recvfrom s buf f with hdrs := hs }
  | .recvmsg _, [] => ⟨.error .efault, false, s, [], [], []⟩
  | .recvmsg f, h :: rest =>
    let o := Recv.recvmsg domain s h f
    { o with hdrs := o.hdrs ++ rest }
  | .recvmmsg f, hs => Recv.recvmmsg domain s hs f

end NixVm.Recv
