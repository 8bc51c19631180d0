/-
Sending on a socket (`src/kernel/net.rs`): `sendto`, `send_bytes`, `write_socket` and what they
call, for datagrams, ICMP, netlink requests and streams.

How much of an interrupted send is already done (`io_progress`) is part of the call.
-/
import NixVm.Kernel.Sockets

namespace NixVm.Sockets

def patch (data : List UInt8) (i : Nat) (bytes : List UInt8) : Option (List UInt8) :=
  if i + bytes.length ≤ data.length then
    some (data.take i ++ bytes ++ data.drop (i + bytes.length))
  else none

def toBe16 (n : Nat) : List UInt8 := [UInt8.ofNat (n / 256), UInt8.ofNat n]

/-! ### ICMP messages -/

/-- The sum of the big-endian halfwords, padded with zero. -/
def sum16 : List UInt8 → Nat
  | [] => 0
  | [a] => be16 a 0
  | a :: b :: rest => be16 a b + sum16 rest

def fold16 (sum : Nat) : Nat :=
  if sum / 65536 = 0 then sum else fold16 (sum % 65536 + sum / 65536)
termination_by sum
decreasing_by omega

def inetChecksum (data : List UInt8) : Nat := 65535 - fold16 (sum16 data % 2 ^ 32)

def setIcmp4Checksum (msg : List UInt8) : Option (List UInt8) := do
  let msg ← patch msg 2 [0, 0]
  patch msg 2 (toBe16 (inetChecksum msg))

def loopbackIpPacket (a : InetAddr) (msg : List UInt8) : Option (List UInt8) :=
  let ip := (if a.isAny then loopbackIp a.v6 else a.ip).toList
  if a.v6 then
    some ([0x60, 0, 0, 0] ++ toBe16 msg.length ++ [58, 64] ++ ip ++ ip ++ msg)
  else do
    let p := [0x45, 0] ++ toBe16 (20 + msg.length) ++ [0, 0, 0, 0, 64, 1, 0, 0] ++
      ip.take 4 ++ ip.take 4
    let header ← slice p 0 20
    let p ← patch p 10 (toBe16 (inetChecksum header))
    some (p ++ msg)

def shapeIcmp (icmp : Icmp) (pkt : List UInt8) : Option (Option (List UInt8)) :=
  match pkt.head? with
  | none => some none
  | some first =>
    let v6 : Bool := first >>> 4 = 6
    let hl := if v6 then 40 else (first &&& 0xf).toNat * 4
    let msg := pkt.drop hl
    if pkt.length < hl ∨ msg.length < 8 then some none
    else do
      let reply : UInt8 := if v6 then 129 else 0
      let foreign := (← msg[0]?) ≠ reply ∨ (← slice msg 4 6) ≠ toBe16 icmp.ident.toNat
      if ¬icmp.raw ∧ foreign then some none
      else some (some (if icmp.raw ∧ ¬v6 then pkt else msg))

/-! ### Netlink requests -/

def le32 (a b c d : UInt8) : Nat := le16 a b + 65536 * le16 c d

def nlmsgAlign (len : Nat) : Nat := (len + 3) / 4 * 4

def namedLo (body : List UInt8) (i : Nat) : Option Bool :=
  if _h : i + 4 ≤ body.length then do
    let len := le16 (← body[i]?) (← body[i + 1]?)
    let ty := le16 (← body[i + 2]?) (← body[i + 3]?)
    if _hl : len < 4 then some false
    else if ty = 3 then
      some (if i + len ≤ body.length then
          ((body.drop (i + 4)).take (len - 4)).takeWhile (· ≠ 0) = [108, 111] else false)
    else namedLo body (i + nlmsgAlign len)
  else some false
termination_by body.length - i
decreasing_by
  unfold nlmsgAlign
  omega

inductive HostSend
  | sent (n : Nat)
  | wouldBlock
  | invalidInput
  | failed

namespace Net

/-- `set_link`: an error number, if any. -/
def setLink (net : Net) (ns : Nat) (privileged : Bool) (body : List UInt8) :
    Option (Option Errno × Net) :=
  if body.length < 32 then some (some .einval, net)
  else do
    let msg ← slice body 16 32
    let index := le32 (← msg[4]?) (← msg[5]?) (← msg[6]?) (← msg[7]?)
    let flags := le32 (← msg[8]?) (← msg[9]?) (← msg[10]?) (← msg[11]?)
    let change := le32 (← msg[12]?) (← msg[13]?) (← msg[14]?) (← msg[15]?)
    let named ← (if index = 0 then namedLo body 32 else some false)
    let isLo := index = 1 ∨ (index = 0 ∧ named)
    let isTun := index = 2 ∧ ns = 0 ∧ (net.egress.bind id).isSome
    if ¬isLo ∧ ¬isTun then some (some .enodev, net)
    else if ¬privileged then some (some .eperm, net)
    -- a zero mask is the old convention for every flag
    else if change ≠ 0 ∧ change % 2 = 0 then some (none, net)
    else
      let up : Bool := flags % 2 = 1
      if isTun then some (if up then none else some .eperm, net)
      else some (none, { net with loState := fun k => if k = ns then some up else net.loState k })

/-- Which addresses the interfaces of a namespace have, of the two families. -/
def ifacesOf (net : Net) (ns : Nat) : List (Bool × Bool) :=
  (net.loUp ns, net.loUp ns) ::
    if ns = 0 then (net.egress.bind id).toList else []

def nlReplies (net : Net) (ns typ flags family : Nat) (privileged : Bool) (body : List UInt8) :
    Option (Nat × Net) :=
  let wantAck : Bool := flags / 4 % 2 = 1
  let dump : Bool := flags / 256 % 4 = 3
  let wants (f : Nat) : Bool := family = 0 || family = f
  let addrs (i : Bool × Bool) : Nat := (i.1 && wants afInet).toNat + (i.2 && wants afInet6).toNat
  if (typ = 16 ∨ typ = 19) ∧ ¬dump then do
    let (e, net) ← net.setLink ns privileged body
    some (if e ≠ none ∨ wantAck then 1 else 0, net)
  else if typ = 18 ∧ dump then some ((net.ifacesOf ns).length + 1, net)
  else if typ = 22 ∧ dump then some (((net.ifacesOf ns).map addrs).sum + 1, net)
  else if typ = 26 ∧ dump then
    let link := if ns = 0 then net.egress.bind id else none
    some ((link.map fun l => 2 * addrs l).getD 0 + 1, net)
  else some (1, net)

/-- The requests in `data` from `offset` on, answered one after another. -/
def handleNetlinkFrom (net : Net) (sock : Nat) (data : List UInt8) (privileged : Bool)
    (offset : Nat) : Res :=
  if _h : offset + 16 ≤ data.length then do
    let hdr ← slice data offset (offset + 16)
    let len := le32 (← hdr[0]?) (← hdr[1]?) (← hdr[2]?) (← hdr[3]?)
    if _hl : len < 16 then some (.ret data.length, net)
    else
      let typ := le16 (← hdr[4]?) (← hdr[5]?)
      let flags := le16 (← hdr[6]?) (← hdr[7]?)
      let family := if 16 < len then ((data[offset + 16]?).map UInt8.toNat).getD 0 else 0
      let s ← net.socks[sock]?
      let body ← slice data offset (min (offset + len) data.length)
      let (replies, net) ← net.nlReplies s.netns typ flags family privileged body
      let s ← net.socks[sock]?
      match s.kind with
      | .netlink pid queued =>
        if 4096 < queued + replies then net.fail .enobufs
        else
          handleNetlinkFrom (net.setKind sock (.netlink pid (queued + replies))) sock data
            privileged (offset + nlmsgAlign len)
      | _ => handleNetlinkFrom net sock data privileged (offset + nlmsgAlign len)
  else some (.ret data.length, net)
termination_by data.length - offset
decreasing_by
  all_goals
    unfold nlmsgAlign
    omega

/-! ### Datagrams -/

def Sock.joined (s : Sock) (group : InetAddr) : Bool :=
  match s.kind with
  | .dgram d => d.groups.contains group
  | _ => false

def multicastReceivers (net : Net) (sock : Nat) (dest : InetAddr) : Option (List Nat) := do
  let s ← net.socks[sock]?
  let group : InetAddr := { dest with port := 0 }
  let anyoneJoined := dest.isAllHosts || net.socks.any fun t => t.netns = s.netns && Sock.joined t group
  match net.dgramPorts (routeKey s.netns "udp" dest) with
  | none => some []
  | some bound =>
    let kept ← bound.mapM fun i => do
      let t ← net.socks[i]?
      match t.kind with
      | .dgram d =>
        let here := d.localAddr.any fun l => l.isAny || l.ip = dest.ip
        let member := Sock.joined t group || dest.isAllHosts || 
          (t.opts.multicastAll dest.v6 && anyoneJoined)
        some (if here && member then some i else none)
      | _ => some none
    some (kept.filterMap id)

def multicastSend (net : Net) (sock : Nat) (data : List UInt8) (dest : InetAddr) : Res := do
  let s ← net.socks[sock]?
  if !net.loUp s.netns then net.fail .enetunreach
  else
    let (src, net) ← net.ensureDgramBound sock
    let src := if src.isAny || src.isMulticast then { src with ip := loopbackIp src.v6 } else src
    let s ← net.socks[sock]?
    if s.opts.multicastLoop dest.v6 then
      let targets ← net.multicastReceivers sock dest
      let net ← targets.foldlM (fun net tgt => net.enqueueAt tgt src data) net
      some (.ret data.length, net)
    else some (.ret data.length, net)

/-- A ping socket sends echo requests, with its own identifier and checksum. -/
def icmpMessage (icmp : Icmp) (v6 : Bool) (data : List UInt8) : Option (Option (List UInt8)) :=
  if icmp.raw then some (some data)
  else do
    if (← data[0]?) ≠ (if v6 then 128 else 8) then some none
    else
      let msg ← patch data 4 (toBe16 icmp.ident.toNat)
      if v6 then some (some msg) else some (some (← setIcmp4Checksum msg))

/-- The answer of the loopback interface to an ICMP message. -/
def icmpAnswer (icmp : Icmp) (dest : InetAddr) (msg : List UInt8) :
    Option (Option (List UInt8)) := do
  if (← msg[0]?) = (if dest.v6 then 128 else 8) then
    let reply ← patch msg 0 [if dest.v6 then 129 else 0]
    let reply ← (if dest.v6 then some reply else setIcmp4Checksum reply)
    shapeIcmp icmp (← loopbackIpPacket dest reply)
  else some none

def icmpSend (net : Net) (sock : Nat) (data : List UInt8) (dest : InetAddr) (answer : HostSend) :
    Res := do
  let s ← net.socks[sock]?
  match s.kind with
  | .dgram d =>
    match d.icmp with
    | none => net.fail .einval
    | some icmp =>
      if data.length < 8 then net.fail .einval
      else
        match ← icmpMessage icmp dest.v6 data with
        | none => net.fail .einval
        | some msg =>
          if dest.validBind then
            let src : InetAddr := ⟨dest.v6, 0, if dest.isAny then loopbackIp dest.v6 else dest.ip⟩
            match ← icmpAnswer icmp dest msg with
            | some p => some (.ret data.length, net.setKind sock (.dgram (d.enqueue src p)))
            | none => some (.ret data.length, net)
          else if !d.host then net.fail .enetunreach
          else
            match answer with
            | .sent _ => some (.ret data.length, net)
            | .invalidInput => net.fail .emsgsize
            | _ => net.fail .enetunreach
  | _ => net.fail .einval

def hostUdpSend (net : Net) (sock : Nat) (data : List UInt8) (opens : Bool) (answer : HostSend) :
    Res := do
  let s ← net.socks[sock]?
  match s.kind with
  | .dgram d =>
    let sent (net : Net) : Res := match answer with
      | .sent n => some (.ret n, net)
      | _ => some (.ret data.length, net)
    if d.host then sent net
    else if (← net.egressFor sock) && opens then
      sent (net.setKind sock (.dgram { d with host := true }))
    else net.fail .enetunreach
  | _ => net.fail .einval

/-- Deliver a datagram to the socket bound to a port here, if any. -/
def udpDeliver (net : Net) (sock : Nat) (data : List UInt8) (dest : InetAddr) : Res := do
  let (src, net) ← net.ensureDgramBound sock
  let s ← net.socks[sock]?
  match ← net.pickDgramTarget (routeKey s.netns "udp" dest) src.port with
  | some tgt => some (.ret data.length, ← net.enqueueAt tgt src data)
  | none => some (.ret data.length, net)

/-- What a call to send is about, other than the socket and its bytes. -/
structure SendCall where
  privileged : Bool
  progress : Nat
  dontwait : Bool
  /-- Whether the host gives out a UDP socket, and what it says to the send. -/
  opens : Bool
  answer : HostSend

/-- A datagram socket with the peer that `connect` gave it. -/
def writeDgram (net : Net) (sock : Nat) (d : Dgram) (data : List UInt8) (call : SendCall) : Res :=
  match d.pairPeer with
  | some tgt => do
    let net ← net.enqueueAt tgt ⟨false, 0, anyIp⟩ data
    some (.ret data.length, net)
  | none =>
    match d.peer with
    | none => net.fail .enotconn
    | some peer =>
      if d.icmp.isSome then net.icmpSend sock data peer call.answer
      else if peer.isMulticast then net.multicastSend sock data peer
      else if ¬peer.validBind then net.hostUdpSend sock data call.opens call.answer
      else net.udpDeliver sock data peer

/-- A stream: what fits goes in, and a blocking send waits to finish the rest. -/
def writePair (net : Net) (sock e : Nat) (s : Sock) (p : Pair) (data : List UInt8)
    (call : SendCall) : Res := do
  let far ← other e
  if (← at2 p.shutWr e) || (← at2 p.refs far) = 0 then net.fail .epipe
  else
    let capacity := min (2 * s.opts.sndbuf) (2 ^ 32 - 1)
    let sent := min call.progress data.length
    let queue ← at2 p.toEnd far
    let n := min (capacity - queue.length) (data.length - sent)
    let bytes ← slice data sent (sent + n)
    let net := net.setKind sock (.pair { p with toEnd := set2 p.toEnd far (queue ++ bytes) })
    let sent := sent + n
    if sent = data.length then some (.ret sent, net)
    else if (← at2 p.nonblock e) || call.dontwait then
      if 0 < sent then some (.ret sent, net) else net.fail .eagain
    else some (.block, net)

def writeSocket (net : Net) (sock e : Nat) (data : List UInt8) (call : SendCall) : Res := do
  let s ← net.socks[sock]?
  match s.kind with
  | .netlink .. => net.handleNetlinkFrom sock data call.privileged 0
  | .dgram d => net.writeDgram sock d data call
  | .host nonblock _ wrShut =>
    if wrShut then net.fail .epipe
    else
      match call.answer with
      | .sent n => some (.ret n, net)
      | .wouldBlock => if nonblock then net.fail .eagain else some (.block, net)
      | _ => net.fail .econnreset
  | .pair p => net.writePair sock e s p data call
  | _ => net.fail .einval

def sendInet (net : Net) (sock : Nat) (d : Dgram) (data : List UInt8) (dest : InetAddr)
    (call : SendCall) : Res := do
  match ← net.loopbackUnreachable sock dest with
  | some e => net.fail e
  | none =>
    if d.icmp.isSome then net.icmpSend sock data dest call.answer
    else if dest.isMulticast then net.multicastSend sock data dest
    else if ¬dest.validBind then
      if !(← net.egressFor sock) then net.fail .enetunreach
      else net.hostUdpSend sock data call.opens call.answer
    else net.udpDeliver sock data dest

/-- `send_bytes`: `dest` is `none` for a null address. -/
def sendBytes (net : Net) (fd : Nat) (data : List UInt8) (dest : Option (Mem × Nat))
    (identity : Option Key) (call : SendCall) : Res :=
  match net.sockOf fd with
  | none => net.fail .enotsock
  | some (sock, e) => do
    let s ← net.socks[sock]?
    match dest with
    | none => net.writeSocket sock e data call
    | some (mem, addrlen) =>
      if s.domain = afNetlink then net.writeSocket sock e data call
      else
        match ← readSockaddr net.lossy mem addrlen, s.kind with
        | some (.inet dest), .dgram d => net.sendInet sock d data dest call
        | some (.unix path), .dgram _ =>
          match net.dgramPaths (unixKey s.netns path identity) with
          | some tgt =>
            let net ← net.enqueueAt tgt ⟨false, 0, anyIp⟩ data
            some (.ret data.length, net)
          | none => some (.ret data.length, net)
        | _, _ => net.fail .einval

def maxRwCount : Nat := 0x7ffff000

def sendto (net : Net) (fd : Nat) (buf : Mem) (len : Nat) (dest : Option (Mem × Nat))
    (identity : Option Key) (call : SendCall) : Res :=
  match readVec buf (min len maxRwCount) with
  | none => net.fail .efault
  | some data => net.sendBytes fd data dest identity call

/-! ### Runs -/

inductive Op
  | socket (netns domain baseType protocol : Nat) (nonblock hostIcmp : Bool)
  | socketpair (netns domain baseType : Nat) (nonblock writable : Bool)
  | bind (fd : Nat) (mem : Mem) (addrlen : Nat) (identity : Option Key)
  | listen (fd : Nat)
  | connect (fd : Nat) (mem : Mem) (addrlen : Nat) (identity : Option Key)
      (answer : HostConnect) (poll : HostPoll)
  | accept4 (fd : Nat) (nonblock : Bool)
  | sendto (fd : Nat) (buf : Mem) (len : Nat) (dest : Option (Mem × Nat))
      (identity : Option Key) (call : SendCall)

/-- A call, `none` where the machine aborts. -/
def call (net : Net) : Op → Res
  | .socket ns domain type protocol nonblock hostIcmp =>
    net.socket ns domain type protocol nonblock hostIcmp
  | .socketpair ns domain type nonblock writable => net.socketpair ns domain type nonblock writable
  | .bind fd mem addrlen identity => net.bind fd mem addrlen identity
  | .listen fd => net.listen fd
  | .connect fd mem addrlen identity answer poll => net.connect fd mem addrlen identity answer poll
  | .accept4 fd nonblock => net.accept4 fd nonblock
  | .sendto fd buf len dest identity call => net.sendto fd buf len dest identity call

def step (net : Net) (op : Op) : Option Net := (net.call op).map (·.2)

def init (egress : Option (Option (Bool × Bool))) (lossy : List UInt8 → List UInt8) : Net where
  socks := []
  listeners := fun _ => none
  dgramPorts := fun _ => none
  dgramPaths := fun _ => none
  nextListener := 0
  loState := fun _ => none
  egress := egress
  pingIdent := 0
  lossy := lossy
  fds := []

end Net

end NixVm.Sockets
