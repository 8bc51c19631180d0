/-
Sockets (`src/kernel/net.rs`): `socket`, `socketpair`, `bind`, `listen`, `connect`, `accept4` and
what they read of guest memory, with every place at which they could panic; `sendto` is in
`Kernel/Send`.

A computation is `none` where the source panics: an index out of range, an `unreachable!`, a slice
that does not fit. A descriptor names a socket by its index and one of its two ends; both are
numbers, as in the source, and indexing with them is checked.

Guest memory at an address is a partial map from offsets to bytes. What the host's network answers
is part of a call.
-/
import NixVm.Kernel.Errno
import NixVm.Lib.Run

namespace NixVm.Sockets

/-! ### Addresses -/

def afUnix : Nat := 1
def afInet : Nat := 2
def afInet6 : Nat := 10
def afNetlink : Nat := 16

abbrev Ip := Vector UInt8 16

def toIp (bytes : List UInt8) : Ip := Vector.ofFn fun i => bytes.getD i 0

structure InetAddr where
  v6 : Bool
  port : Nat
  ip : Ip
  deriving DecidableEq

inductive Addr
  | unix (name : List UInt8)
  | inet (a : InetAddr)
  deriving DecidableEq

def loopbackIp (v6 : Bool) : Ip :=
  if v6 then toIp (List.replicate 15 0 ++ [1]) else toIp [127, 0, 0, 1]

def anyIp : Ip := toIp []

namespace InetAddr

def isAny (a : InetAddr) : Bool := a.ip = anyIp

def isLoopback (a : InetAddr) : Bool :=
  if a.v6 then a.ip = loopbackIp true else a.ip[0] = 127

/-- Only the wildcard and loopback addresses are the machine's own. -/
def validBind (a : InetAddr) : Bool := a.isAny || a.isLoopback

def isMulticast (a : InetAddr) : Bool :=
  if a.v6 then a.ip[0] = 0xff else a.ip[0] &&& 0xf0 = 0xe0

def isAllHosts (a : InetAddr) : Bool :=
  a.ip = if a.v6 then toIp ([0xff, 0x02] ++ List.replicate 13 0 ++ [1]) else toIp [224, 0, 0, 1]

end InetAddr

/-- The key of an address in the tables of ports, names and listeners. -/
abbrev Key := List UInt8

def routeKey (netns : Nat) (proto : String) (a : InetAddr) : Key :=
  (toString netns ++ "/" ++ proto ++ (if a.v6 then "6" else "4") ++ ":" ++
    toString a.port).toUTF8.toList

def unixKey (netns : Nat) (name : List UInt8) (identity : Option Key) : Key :=
  if name.head? = some 0 then (toString netns ++ "/").toUTF8.toList ++ name
  else identity.getD name

/-! ### Guest memory -/

/-- The bytes from an address on; `none` where nothing can be read. -/
abbrev Mem := Nat → Option UInt8

def readVec (mem : Mem) (n : Nat) : Option (List UInt8) := (List.range n).mapM mem

def slice (data : List UInt8) (a b : Nat) : Option (List UInt8) :=
  if a ≤ b ∧ b ≤ data.length then some ((data.drop a).take (b - a)) else none

def le16 (a b : UInt8) : Nat := a.toNat + 256 * b.toNat

def be16 (a b : UInt8) : Nat := 256 * a.toNat + b.toNat

/-- `read_sockaddr`. A name is what `String::from_utf8_lossy` makes of its bytes. -/
def readSockaddr (lossy : List UInt8 → List UInt8) (mem : Mem) (addrlen : Nat) :
    Option (Option Addr) :=
  if addrlen < 2 then some none
  else
    match readVec mem (min addrlen 128) with
    | none => some none
    | some bytes => do
      let family := le16 (← bytes[0]?) (← bytes[1]?)
      if family = afUnix then
        let path ← slice bytes 2 bytes.length
        let len := if path.head? = some 0 then min (addrlen - 2) path.length
          else (path.findIdx? (· = 0)).getD path.length
        let name ← slice path 0 len
        some (some (.unix (lossy name)))
      else if family = afInet ∧ 8 ≤ bytes.length then
        let ip ← slice bytes 4 8
        some (some (.inet ⟨false, be16 (← bytes[2]?) (← bytes[3]?), toIp ip⟩))
      else if family = afInet6 ∧ 24 ≤ bytes.length then
        let ip ← slice bytes 8 24
        some (some (.inet ⟨true, be16 (← bytes[2]?) (← bytes[3]?), toIp ip⟩))
      else some none

/-! ### Sockets -/

def at2 {α : Type} (a : α × α) (e : Nat) : Option α :=
  if e = 0 then some a.1 else if e = 1 then some a.2 else none

def other (e : Nat) : Option Nat := if e ≤ 1 then some (1 - e) else none

def set2 {α : Type} (a : α × α) (e : Nat) (x : α) : α × α :=
  if e = 0 then (x, a.2) else (a.1, x)

structure Pair where
  toEnd : List UInt8 × List UInt8
  refs : Nat × Nat
  shutWr : Bool × Bool
  nonblock : Bool × Bool
  addrs : Option InetAddr × Option InetAddr

structure Icmp where
  raw : Bool
  ident : UInt16

structure Dgram where
  localAddr : Option InetAddr
  peer : Option InetAddr
  pairPeer : Option Nat
  queue : List (InetAddr × List UInt8)
  queuedBytes : Nat
  host : Bool
  icmp : Option Icmp
  groups : List InetAddr

def Dgram.new : Dgram := ⟨none, none, none, [], 0, false, none, []⟩

def Dgram.enqueue (d : Dgram) (src : InetAddr) (payload : List UInt8) : Dgram :=
  let cost := payload.length + 256
  if d.queuedBytes + cost ≤ 2 * 212992 then
    { d with queuedBytes := d.queuedBytes + cost, queue := d.queue ++ [(src, payload)] }
  else d

inductive Kind
  | idle (bound : Option Addr)
  | listener (addr : Option Addr) (backlog : List Nat)
  | pair (p : Pair)
  | dgram (d : Dgram)
  | netlink (pid : Nat) (queued : Nat)
  | host (nonblock connecting wrShut : Bool)

/-- The options that the modelled calls read. -/
structure Opts where
  reuseaddr : Bool
  reuseport : Bool
  sndbuf : Nat
  multicastLoop : Bool → Bool
  multicastAll : Bool → Bool

def Opts.default : Opts := ⟨false, false, 106496, fun _ => true, fun _ => true⟩

structure Sock where
  netns : Nat
  unixBoundKey : Option Key
  domain : Nat
  kind : Kind
  nonblock : Bool
  opts : Opts
  refs : Nat

structure Net where
  socks : List Sock
  listeners : Key → Option (List Nat)
  dgramPorts : Key → Option (List Nat)
  dgramPaths : Key → Option Nat
  nextListener : Nat
  loState : Nat → Option Bool
  /-- Whether there is a way out of the virtual machine, and the addresses of its link. -/
  egress : Option (Option (Bool × Bool))
  pingIdent : UInt16
  /-- `String::from_utf8_lossy`. -/
  lossy : List UInt8 → List UInt8
  /-- The descriptors: a socket and one of its ends. -/
  fds : List (Nat × Nat)

inductive Reply
  | ret (n : Nat)
  | err (e : Errno)
  /-- The caller is put to sleep and the call made again. -/
  | block

abbrev Res := Option (Reply × Net)

namespace Net

def fail (net : Net) (e : Errno) : Res := some (.err e, net)

def done (net : Net) : Res := some (.ret 0, net)

def setKind (net : Net) (i : Nat) (k : Kind) : Net :=
  { net with socks := net.socks.modify i fun s => { s with kind := k } }

def addSock (net : Net) (s : Sock) : Net := { net with socks := net.socks ++ [s] }

def addFd (net : Net) (sock e : Nat) : Net := { net with fds := net.fds ++ [(sock, e)] }

def newSock (netns domain : Nat) (kind : Kind) (nonblock : Bool) : Sock :=
  ⟨netns, none, domain, kind, nonblock, .default, 1⟩

def sockOf (net : Net) (fd : Nat) : Option (Nat × Nat) := net.fds[fd]?

def loUp (net : Net) (ns : Nat) : Bool := (net.loState ns).getD (ns = 0)

/-- What `sock`'s namespace says to a loopback destination while its `lo` is down. -/
def loopbackUnreachable (net : Net) (sock : Nat) (dest : InetAddr) : Option (Option Errno) :=
  if dest.validBind then do
    let s ← net.socks[sock]?
    some (if net.loUp s.netns then none
      else some (if dest.v6 then .eaddrnotavail else .enetunreach))
  else some none

def egressFor (net : Net) (sock : Nat) : Option Bool := do
  let s ← net.socks[sock]?
  some (s.netns = 0 && net.egress.isSome)

/-! ### Ports -/

def Sock.holds (s : Sock) (proto : String) (key : Key) : Bool × Bool :=
  match s.kind with
  | .idle (some (.inet b)) => (proto = "tcp" && routeKey s.netns "tcp" b = key, false)
  | .listener (some (.inet b)) _ =>
    if proto = "tcp" then (routeKey s.netns "tcp" b = key, true) else (false, false)
  | .dgram d => (proto = "udp" && d.localAddr.any fun b => routeKey s.netns "udp" b = key, false)
  | _ => (false, false)

/-- `exclude` is no socket when a free port is looked for on behalf of none. -/
def addrInUse (net : Net) (netns : Nat) (proto : String) (a : InetAddr) (exclude : Option Nat) :
    Bool :=
  let key := routeKey netns proto a
  let mine := exclude.bind fun i => net.socks[i]?
  let myReuseaddr := (mine.map (·.opts.reuseaddr)).getD false
  let myReuseport := (mine.map (·.opts.reuseport)).getD false
  net.socks.zipIdx.any fun (s, i) =>
    if some i = exclude then false
    else
      let (same, listening) := Sock.holds s proto key
      same && !(myReuseport && s.opts.reuseport) && !(myReuseaddr && s.opts.reuseaddr && !listening)

def ephemeralPort (net : Net) (netns : Nat) (proto : String) (v6 : Bool) : Nat :=
  ((List.range' 32768 28232).find? fun port =>
    !net.addrInUse netns proto ⟨v6, port, anyIp⟩ none).getD 0

def freshLocal (net : Net) (netns : Nat) (v6 : Bool) : InetAddr :=
  ⟨v6, net.ephemeralPort netns "tcp" v6, loopbackIp v6⟩

def listenConflict (net : Net) (a : InetAddr) (sock : Nat) : Option Bool := do
  let s ← net.socks[sock]?
  match net.listeners (routeKey s.netns "tcp" a) with
  | none => some false
  | some group =>
    let clash ← group.mapM fun i =>
      if i ≠ sock then (net.socks[i]?).map fun l => !(s.opts.reuseport && l.opts.reuseport) else some false
    some (clash.any id)

/-- `group[next % group.len()]`: the remainder panics on an empty group. -/
def pickListener (net : Net) (key : Key) : Option (Option Nat × Net) :=
  match net.listeners key with
  | none => some (none, net)
  | some group =>
    if group.length = 0 then none
    else
      some (group[net.nextListener % group.length]?,
        { net with nextListener := (net.nextListener + 1) % 2 ^ 64 })

def pickDgramTarget (net : Net) (key : Key) (srcPort : Nat) : Option (Option Nat) :=
  match net.dgramPorts key with
  | none => some none
  | some group => do
    let sel ← group.mapM fun i => (net.socks[i]?).map fun s => (i, s)
    let sel := sel.filter fun (_, s) =>
      match s.kind with
      | .dgram d => !(d.localAddr.any InetAddr.isMulticast)
      | _ => true
    if sel = [] then some none
    else if sel.all fun (_, s) => s.opts.reuseport then
      some ((sel[srcPort % sel.length]?).map (·.1))
    else some (sel.getLast?.map (·.1))

/-- Give a datagram socket a free loopback port. -/
def autoBind (net : Net) (sock : Nat) (s : Sock) : InetAddr × Net :=
  let v6 : Bool := s.domain = afInet6
  let a : InetAddr := ⟨v6, net.ephemeralPort s.netns "udp" v6, loopbackIp v6⟩
  let key := routeKey s.netns "udp" a
  let net := match s.kind with
    | .dgram d => net.setKind sock (.dgram { d with localAddr := some a })
    | _ => net
  (a, { net with dgramPorts := fun k =>
    if k = key then some ((net.dgramPorts k).getD [] ++ [sock]) else net.dgramPorts k })

/-- The local address of a datagram socket, given to it now if need be. -/
def ensureDgramBound (net : Net) (sock : Nat) : Option (InetAddr × Net) := do
  let s ← net.socks[sock]?
  match s.kind with
  | .dgram d =>
    match d.localAddr with
    | some a => some (a, net)
    | none => some (net.autoBind sock s)
  | _ => some (net.autoBind sock s)

/-- Put a datagram into the queue of a socket, if it takes datagrams. -/
def enqueueAt (net : Net) (tgt : Nat) (src : InetAddr) (data : List UInt8) : Option Net := do
  let s ← net.socks[tgt]?
  match s.kind with
  | .dgram d => some (net.setKind tgt (.dgram (d.enqueue src data)))
  | _ => some net

/-! ### Making sockets -/

def sockStream : Nat := 1
def sockDgram : Nat := 2
def sockRaw : Nat := 3

/-- `socket`, for a process in the network namespace `netns`. -/
def socket (net : Net) (netns domain baseType protocol : Nat) (nonblock hostIcmp : Bool) : Res :=
  let domain := domain % 2 ^ 16
  let install (net : Net) (kind : Kind) : Res :=
    some (.ret net.fds.length,
      (net.addSock (newSock netns domain kind nonblock)).addFd net.socks.length 0)
  if domain = afNetlink then
    if baseType ≠ sockRaw ∧ baseType ≠ sockDgram then net.fail .eopnotsupp
    else if protocol ≠ 0 then net.fail .eprotonosupport
    else install net (.netlink 0 0)
  else if domain ≠ afUnix ∧ domain ≠ afInet ∧ domain ≠ afInet6 then net.fail .eafnosupport
  else
    let icmpProto := if domain = afInet6 then 58 else 1
    if domain ≠ afUnix ∧ (baseType = sockRaw ∨ (baseType = sockDgram ∧ protocol = icmpProto)) then
      if protocol ≠ icmpProto then net.fail .eprotonosupport
      else
        let net := { net with pingIdent := net.pingIdent + 1 }
        install net (.dgram { Dgram.new with
          icmp := some ⟨baseType = sockRaw, net.pingIdent⟩
          host := hostIcmp && netns = 0 && net.egress.isSome })
    else if baseType ≠ sockStream ∧ baseType ≠ sockDgram then net.fail .eopnotsupp
    else install net (if baseType = sockDgram then .dgram Dgram.new else .idle none)

def newPair (nonblock : Bool) : Pair :=
  ⟨([], []), (1, 1), (false, false), (nonblock, nonblock), (none, none)⟩

/-- `socketpair`: two datagram sockets, or a stream with two ends. -/
def socketpair (net : Net) (netns domain baseType : Nat) (nonblock writable : Bool) : Res :=
  let answer := if writable then Reply.ret 0 else .err .efault
  if domain % 2 ^ 16 ≠ afUnix then net.fail .eafnosupport
  else if baseType ≠ sockStream ∧ baseType ≠ sockDgram then net.fail .eopnotsupp
  else
    let a := net.socks.length
    if baseType = sockDgram then
      let one peer := newSock netns afUnix (.dgram { Dgram.new with pairPeer := some peer }) nonblock
      some (answer, (((net.addSock (one (a + 1))).addSock (one a)).addFd a 0).addFd (a + 1) 0)
    else
      some (answer,
        ((net.addSock (newSock netns afUnix (.pair (newPair nonblock)) nonblock)).addFd a 0).addFd
          a 1)

/-! ### Binding and listening -/

def bindNetlink (net : Net) (sock : Nat) (mem : Mem) (addrlen : Nat) : Res :=
  if addrlen < 8 then net.fail .einval
  else
    match readVec mem 8 with
    | none => net.fail .efault
    | some b => do
      let family := le16 (← b[0]?) (← b[1]?)
      if family ≠ afNetlink then net.fail .einval
      else
        let requested := le16 (← b[4]?) (← b[5]?) + 65536 * le16 (← b[6]?) (← b[7]?)
        let s ← net.socks[sock]?
        match s.kind with
        | .netlink _ queued =>
          (net.setKind sock (.netlink (if requested = 0 then (sock + 1) % 2 ^ 32 else requested) queued)).done
        | _ => net.fail .einval

def bindUnix (net : Net) (sock : Nat) (s : Sock) (path : List UInt8) (identity : Option Key) :
    Res :=
  if s.domain ≠ afUnix then net.fail .einval
  else
    let key := unixKey s.netns path identity
    let net := { net with socks := net.socks.modify sock fun s => { s with unixBoundKey := some key } }
    match s.kind with
    | .idle _ => (net.setKind sock (.idle (some (.unix path)))).done
    | .dgram _ =>
      done { net with dgramPaths := fun k => if k = key then some sock else net.dgramPaths k }
    | _ => net.fail .einval

def bindInet (net : Net) (sock : Nat) (s : Sock) (a : InetAddr) : Res :=
  if (a.v6 ∧ s.domain ≠ afInet6) ∨ (¬a.v6 ∧ s.domain ≠ afInet) then net.fail .einval
  else
    let proto := match s.kind with
      | .idle _ => some "tcp"
      | .dgram _ => some "udp"
      | _ => none
    match proto with
    | none => net.fail .einval
    | some proto =>
      if ¬a.validBind ∧ (proto ≠ "udp" ∨ ¬a.isMulticast) then net.fail .eaddrnotavail
      else if a.port ≠ 0 ∧ net.addrInUse s.netns proto a (some sock) then net.fail .eaddrinuse
      else
        let a := if a.port = 0 then { a with port := net.ephemeralPort s.netns proto a.v6 } else a
        match s.kind with
        | .idle _ => (net.setKind sock (.idle (some (.inet a)))).done
        | .dgram d =>
          let net := net.setKind sock (.dgram { d with localAddr := some a })
          let key := routeKey s.netns "udp" a
          done { net with dgramPorts := fun k =>
            if k = key then some (((net.dgramPorts k).getD []).filter (· ≠ sock) ++ [sock])
            else net.dgramPorts k }
        | _ => net.fail .einval

def bind (net : Net) (fd : Nat) (mem : Mem) (addrlen : Nat) (identity : Option Key) : Res :=
  match net.sockOf fd with
  | none => net.fail .enotsock
  | some (sock, _) => do
    let s ← net.socks[sock]?
    if s.domain = afNetlink then net.bindNetlink sock mem addrlen
    else
      match ← readSockaddr net.lossy mem addrlen with
      | none => net.fail .einval
      | some (.unix path) => net.bindUnix sock s path identity
      | some (.inet a) => net.bindInet sock s a

/-- The address to listen on: a free port if `bind` was skipped. -/
def listenAddr (net : Net) (s : Sock) (bound : Option Addr) : Option Addr :=
  if bound = none ∧ s.domain ≠ afUnix then
    let v6 : Bool := s.domain = afInet6
    some (.inet ⟨v6, net.ephemeralPort s.netns "tcp" v6, anyIp⟩)
  else bound

def listenKey (s : Sock) : Addr → Key
  | .unix p => s.unixBoundKey.getD (unixKey s.netns p none)
  | .inet a => routeKey s.netns "tcp" a

def listenOn (net : Net) (sock : Nat) (s : Sock) (bound : Option Addr) : Res := do
  if ← (match bound with
      | some (.inet a) => net.listenConflict a sock
      | _ => some false) then net.fail .eaddrinuse
  else
    let net := net.setKind sock (.listener bound [])
    match bound.map (listenKey s) with
    | none => net.done
    | some key =>
      done { net with listeners := fun k =>
        if k = key then some ((net.listeners k).getD [] ++ [sock]) else net.listeners k }

def listen (net : Net) (fd : Nat) : Res :=
  match net.sockOf fd with
  | none => net.fail .enotsock
  | some (sock, _) => do
    let s ← net.socks[sock]?
    match s.kind with
    | .listener .. => net.done
    | .idle bound => net.listenOn sock s (net.listenAddr s bound)
    | _ => net.fail .einval

/-! ### Connecting -/

inductive HostConnect
  | refused (e : Errno)
  | up
  | pending

inductive HostPoll
  | waiting
  | up
  | failed (e : Errno)

def connectHost (net : Net) (sock e : Nat) (answer : HostConnect) : Res := do
  let s ← net.socks[sock]?
  match s.kind with
  | .idle _ =>
    if e ≠ 0 then net.fail .einval
    else if !(← net.egressFor sock) then net.fail .enetunreach
    else
      match answer with
      | .refused e => net.fail e
      | .up => (net.setKind sock (.host s.nonblock false false)).done
      | .pending =>
        let net := net.setKind sock (.host s.nonblock true false)
        if s.nonblock then net.fail .einprogress else some (.block, net)
  | _ => net.fail .einval

def setPeer (net : Net) (sock : Nat) (peer : InetAddr) : Res := do
  let (_, net) ← net.ensureDgramBound sock
  let s ← net.socks[sock]?
  match s.kind with
  | .dgram d => (net.setKind sock (.dgram { d with peer := some peer })).done
  | _ => net.done

def peerAddr (v6 : Bool) (addr : Option Addr) : InetAddr :=
  let a := match addr with
    | some (.inet a) => a
    | _ => ⟨v6, 0, loopbackIp v6⟩
  if a.isAny then { a with ip := loopbackIp v6 } else a

def connectLocal (net : Net) (sock e : Nat) (s : Sock) (key : Key) : Res :=
  match s.kind with
  | .idle _ =>
    if e ≠ 0 then net.fail .einval
    else do
      let (chosen, net) ← net.pickListener key
      match chosen with
      | none => net.fail .econnrefused
      | some l =>
        let ls ← net.socks[l]?
        match ls.kind with
        | .listener addr backlog =>
          if 4096 ≤ backlog.length then net.fail .eagain
          else
            let v6 := s.domain = afInet6
            let addrs := if s.domain ≠ afUnix then
                (some (net.freshLocal s.netns v6), some (peerAddr v6 addr))
              else (none, none)
            let pair : Pair := { newPair false with
              nonblock := (s.nonblock, false), addrs := addrs, refs := (s.refs, 1) }
            let net := net.setKind sock (.pair pair)
            let net := net.setKind l (.listener addr (backlog ++ [sock]))
            if s.domain ≠ afUnix ∧ s.nonblock then net.fail .einprogress else net.done
        | _ => net.fail .econnrefused
  | _ => net.fail .einval

/-- What a `connect` to an address the socket can have does. -/
def connectTo (net : Net) (sock e : Nat) (s : Sock) (target : Addr) (identity : Option Key)
    (answer : HostConnect) : Res :=
  match target with
  | .inet dest => do
    match ← net.loopbackUnreachable sock dest with
    | some e => net.fail e
    | none =>
      match s.kind with
      | .dgram d =>
        if dest.isMulticast ∧ d.icmp.isNone then net.setPeer sock dest
        else if ¬dest.validBind then
          if !(← net.egressFor sock) then net.fail .enetunreach else net.setPeer sock dest
        else net.setPeer sock dest
      | _ =>
        if ¬dest.validBind then net.connectHost sock e answer
        else net.connectLocal sock e s (routeKey s.netns "tcp" dest)
  | .unix path =>
    match s.kind with
    -- `let Addr::Inet(peer) = target else unreachable!`
    | .dgram _ => none
    | _ => net.connectLocal sock e s (unixKey s.netns path identity)

def connect (net : Net) (fd : Nat) (mem : Mem) (addrlen : Nat) (identity : Option Key)
    (answer : HostConnect) (poll : HostPoll) : Res :=
  match net.sockOf fd with
  | none => net.fail .enotsock
  | some (sock, e) => do
    let s ← net.socks[sock]?
    match s.kind with
    | .host nonblock connecting wrShut =>
      if !connecting then net.fail .eisconn
      else
        let settled := net.setKind sock (.host nonblock false wrShut)
        match poll with
        | .waiting => if nonblock then net.fail .ealready else some (.block, net)
        | .up => settled.done
        | .failed e => settled.fail e
    | _ =>
      match ← readSockaddr net.lossy mem addrlen with
      | none => net.fail .einval
      | some target =>
        let matched := match target with
          | .unix _ => s.domain = afUnix
          | .inet a => if s.domain = afInet then !a.v6 else if s.domain = afInet6 then a.v6 else false
        if !matched then net.fail .einval
        else net.connectTo sock e s target identity answer

/-- `accept4`.  What is written to the caller's buffer never fails the call. -/
def accept4 (net : Net) (fd : Nat) (nonblock : Bool) : Res :=
  match net.sockOf fd with
  | none => net.fail .enotsock
  | some (sock, _) => do
    let s ← net.socks[sock]?
    match s.kind with
    | .listener addr backlog =>
      match backlog with
      | [] => if s.nonblock then net.fail .eagain else some (.block, net)
      | p :: rest =>
        let net := net.setKind sock (.listener addr rest)
        let ps ← net.socks[p]?
        let net := match ps.kind with
          | .pair pair => net.setKind p (.pair { pair with nonblock := (pair.nonblock.1, nonblock) })
          | _ => net
        some (.ret net.fds.length, net.addFd p 1)
    | _ => net.fail .einval

end Net

end NixVm.Sockets
