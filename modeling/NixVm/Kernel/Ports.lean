/-
Closing sockets and setting their options (`src/kernel/net.rs`, `bump`, `release` and
`sys_setsockopt`), and what a connected socket says of its addresses.

A descriptor is its place in the table, and closing one moves those after it up: no call depends on
the numbers. Which options and groups a `setsockopt` leaves is part of the call: it may leave any.
-/
import NixVm.Kernel.Send

namespace NixVm.Sockets

namespace Net

/-- `retain`: take a socket out of every group, and drop empty groups. -/
def withdraw (table : Key → Option (List Nat)) (sock : Nat) (k : Key) : Option (List Nat) :=
  match table k with
  | none => none
  | some group =>
    let group := group.filter (· ≠ sock)
    if group = [] then none else some group

def hangUp (net : Net) (pending : Nat) : Net :=
  match (net.socks[pending]?).map Sock.kind with
  | some (.pair p) => net.setKind pending (.pair { p with refs := (p.refs.1, 0) })
  | _ => net

def release (net : Net) (sock : Nat) (kind : Kind) : Net :=
  let net := net.setKind sock (.idle none)
  match kind with
  | .listener _ backlog => backlog.foldl hangUp { net with listeners := withdraw net.listeners sock }
  | .dgram _ => { net with dgramPorts := withdraw net.dgramPorts sock }
  | _ => net

/-- `bump` with `inc` off. -/
def drop (net : Net) (sock e : Nat) : Option Net :=
  match net.socks[sock]? with
  | none => some net
  | some s =>
    match s.kind with
    | .pair p => do
      let n ← at2 p.refs e
      some (net.setKind sock (.pair { p with refs := set2 p.refs e (n - 1) }))
    | kind =>
      let net := { net with socks := net.socks.modify sock fun s => { s with refs := s.refs - 1 } }
      some (if s.refs - 1 = 0 then net.release sock kind else net)

/-- `close` of a socket's descriptor. -/
def close (net : Net) (fd : Nat) : Option Net :=
  match net.sockOf fd with
  | none => some net
  | some (sock, e) => drop { net with fds := net.fds.eraseIdx fd } sock e

/-- `getsockname` on a connected socket. -/
def sockname (net : Net) (sock e : Nat) : Option InetAddr := do
  match (← net.socks[sock]?).kind with
  | .pair p => ← at2 p.addrs e
  | _ => none

/-- `getpeername` on a connected socket. -/
def peername (net : Net) (sock e : Nat) : Option InetAddr := do
  net.sockname sock (← other e)

/-- `setsockopt`: the options and groups of a socket after it. -/
def setsockopt (net : Net) (fd : Nat) (opts : Opts) (groups : List InetAddr) : Net :=
  match net.sockOf fd with
  | none => net
  | some (sock, _) =>
    { net with
      socks := net.socks.modify sock fun s =>
        { s with
          opts := opts
          kind := match s.kind with
            | .dgram d => .dgram { d with groups := groups }
            | kind => kind } }

inductive Act
  | call (op : Op)
  | close (fd : Nat)
  | setsockopt (fd : Nat) (opts : Opts) (groups : List InetAddr)

def act (net : Net) : Act → Option Net
  | .call op => net.step op
  | .close fd => net.close fd
  | .setsockopt fd opts groups => some (net.setsockopt fd opts groups)

end Net

end NixVm.Sockets
