/-
No socket call aborts the machine, but for one: `connect` with a name on an `AF_UNIX` datagram
socket runs into an `unreachable!`.

What keeps every index in range is that sockets are only ever added (`Net.Good`).
-/
import NixVm.Proofs.Routes
import NixVm.Lib.Returns

namespace NixVm.Sockets

open List Option

/-! ### Guest memory -/

lemma length_readVec {mem : Mem} {n : Nat} {bytes : List UInt8}
    (h : readVec mem n = some bytes) : bytes.length = n := by
  have hlen : ∀ (l : List Nat) bytes, l.mapM mem = some bytes → bytes.length = l.length := by
    intro l
    induction l with
    | nil =>
      intro bytes hb
      cases hb
      rfl
    | cons i l ih =>
      intro bytes hb
      rw [mapM_cons] at hb
      obtain ⟨b, -, hb⟩ := bind_eq_some_iff.mp hb
      have ⟨bs, hbs, hb⟩ := bind_eq_some_iff.mp hb
      cases hb
      rw [length_cons, length_cons, ih bs hbs]
  rw [hlen _ _ h, length_range]

lemma slice_returns {data : List UInt8} {a b : Nat} (h : a ≤ b ∧ b ≤ data.length) :
    Returns (slice data a b) fun bs => bs.length = b - a := by
  unfold slice
  rw [if_pos h]
  refine .pure ?_
  rw [length_take, length_drop]
  omega

lemma patch_returns {data bytes : List UInt8} {i : Nat} (h : i + bytes.length ≤ data.length) :
    Returns (patch data i bytes) fun bs => bs.length = data.length := by
  unfold patch
  rw [if_pos h]
  refine .pure ?_
  simp only [length_append, length_take, length_drop]
  omega

lemma byte_returns {data : List UInt8} {i : Nat} (h : i < data.length) :
    Returns data[i]? fun _ => True :=
  (Returns.getElem h).mono fun _ _ => trivial

lemma readSockaddr_returns (lossy : List UInt8 → List UInt8) (mem : Mem) (addrlen : Nat) :
    Returns (readSockaddr lossy mem addrlen) fun _ => True := by
  refine .ite (fun _ => .pure trivial) fun hlen => ?_
  split
  · exact .pure trivial
  rename_i bytes hbytes
  have hl : bytes.length = min addrlen 128 := length_readVec hbytes
  refine (byte_returns (by omega)).bind fun b0 _ => (byte_returns (by omega)).bind fun b1 _ => ?_
  refine .ite (fun _ => ?_) fun _ => .ite (fun h4 => ?_) fun _ => .ite (fun h6 => ?_) fun _ => ?_
  · refine (slice_returns (by omega)).bind fun path hpath => ?_
    refine (slice_returns ⟨Nat.zero_le _, ?_⟩).bind fun name _ => .pure trivial
    split
    · exact min_le_right ..
    cases hz : path.findIdx? (· = 0) with
    | none => exact le_rfl
    | some j => exact le_of_lt (List.findIdx?_eq_some_iff_findIdx_eq.mp hz).1
  · refine (slice_returns (by omega)).bind fun ip _ => ?_
    exact (byte_returns (by omega)).bind fun _ _ => (byte_returns (by omega)).bind fun _ _ =>
      .pure trivial
  · refine (slice_returns (by omega)).bind fun ip _ => ?_
    exact (byte_returns (by omega)).bind fun _ _ => (byte_returns (by omega)).bind fun _ _ =>
      .pure trivial
  · exact .pure trivial

/-! ### Indices in range -/

/-- The sockets that a socket refers to are among the first `n`. -/
def Kind.Within (n : Nat) : Kind → Prop
  | .listener _ backlog => ∀ i ∈ backlog, i < n
  | .dgram d => ∀ i, d.pairPeer = some i → i < n
  | _ => True

lemma Kind.Within.mono {n m : Nat} (h : n ≤ m) {k : Kind} (hk : k.Within n) : k.Within m := by
  cases k with
  | listener addr backlog | dgram d => exact fun i hi => lt_of_lt_of_le (hk i hi) h
  | _ => trivial

namespace Net

structure Good (net : Net) : Prop where
  kinds : ∀ s ∈ net.socks, s.kind.Within net.socks.length
  listeners : ∀ k g, net.listeners k = some g → g ≠ [] ∧ ∀ i ∈ g, i < net.socks.length
  ports : ∀ k g, net.dgramPorts k = some g → ∀ i ∈ g, i < net.socks.length
  paths : ∀ k i, net.dgramPaths k = some i → i < net.socks.length
  fds : ∀ p ∈ net.fds, p.1 < net.socks.length ∧ p.2 ≤ 1

/-- Good, with no socket added and no connection made. -/
def Keeps (net net' : Net) : Prop :=
  net'.Good ∧ net'.socks.length = net.socks.length ∧ net.Tame net'

/-- A call that returns, and adds no socket. -/
def Fine (net : Net) (x : Res) : Prop := Returns x fun r => net.Keeps r.2

variable {net net' : Net} {sock e : Nat} {s : Sock} {k₀ k : Kind} {d : Dgram} {r : Reply}
  {data : List UInt8} {dest : InetAddr}

lemma Good.keeps (h : net.Good) : net.Keeps net := ⟨h, rfl, .refl net⟩

lemma Good.fine (h : net.Good) : net.Fine (some (r, net)) := .pure h.keeps

lemma Keeps.fine (h : net.Keeps net') : net.Fine (some (r, net')) := .pure h

lemma Keeps.trans {x : Res} (h : net.Keeps net') (hx : net'.Fine x) : net.Fine x :=
  Returns.mono hx fun _ hr => ⟨hr.1, hr.2.1.trans h.2.1, h.2.2.trans hr.2.2⟩

lemma Good.within (h : net.Good) (hs : net.socks[sock]? = some s) :
    s.kind.Within net.socks.length :=
  h.kinds s (mem_of_getElem? hs)

lemma lt_of_getElem (hs : net.socks[sock]? = some s) : sock < net.socks.length :=
  (List.getElem?_eq_some_iff.mp hs).1

lemma lt_of_mem_group {table : Key → Option (List Nat)} {key : Key} {i n : Nat}
    (h : ∀ g, table key = some g → ∀ i ∈ g, i < n) (hi : i ∈ (table key).getD []) : i < n := by
  cases ht : table key with
  | none => simp [ht] at hi
  | some g => exact h g ht i (by simpa [ht] using hi)

lemma Good.modify (h : net.Good) (i : Nat) {f : Sock → Sock}
    (hf : ∀ s ∈ net.socks, (f s).kind.Within net.socks.length) :
    Good { net with socks := net.socks.modify i f } := by
  refine ⟨?_, ?_, ?_, ?_, ?_⟩ <;> simp only [length_modify]
  · intro s hs
    have ⟨j, hj⟩ := List.getElem?_of_mem hs
    rw [List.getElem?_modify] at hj
    obtain ⟨t, ht, rfl⟩ := map_eq_some_iff.mp hj
    split
    · exact hf t (mem_of_getElem? ht)
    · exact h.within ht
  · exact h.listeners
  · exact h.ports
  · exact h.paths
  · exact h.fds

lemma Dgram.enqueue_keeps (d : Dgram) (src : InetAddr) (data : List UInt8) :
    (d.enqueue src data).pairPeer = d.pairPeer ∧ (d.enqueue src data).localAddr = d.localAddr := by
  dsimp only [Dgram.enqueue]
  split <;> exact ⟨rfl, rfl⟩

section

variable (h : net.Good) (hs : net.socks[sock]? = some s)
include h hs

lemma Good.setKind (hk : s.kind = k0)
    (hw : k.Within net.socks.length) (hb : k.badge = k0.badge) (hp : k.isPair = false) :
    net.Keeps (net.setKind sock k) :=
  ⟨h.modify sock fun _ _ => hw, length_modify .., tame_setKind hs hk hb hp⟩

lemma Good.fine_setKind (hk : s.kind = k0)
    (hw : k.Within net.socks.length) (hb : k.badge = k0.badge) (hp : k.isPair = false) :
    net.Fine (some (r, net.setKind sock k)) :=
  (h.setKind hs hk hw hb hp).fine

lemma Good.setPair {p q : Pair}
    (hk : s.kind = .pair p) (ha : q.addrs = p.addrs) (hr : p.refs = (0, 0) → q.refs = (0, 0)) :
    net.Keeps (net.setKind sock (.pair q)) :=
  ⟨h.modify sock fun _ _ => trivial, length_modify .., tame_pair hs hk ha hr⟩

lemma Good.dgram (hd : s.kind = .dgram d) : ∀ i, d.pairPeer = some i → i < net.socks.length := by
  have hw := h.within hs
  rw [hd] at hw
  exact hw

lemma Good.enqueue (hd : s.kind = .dgram d) (src : InetAddr) (data : List UInt8) :
    net.Keeps (net.setKind sock (.dgram (d.enqueue src data))) := by
  have ⟨hpair, hlocal⟩ := Dgram.enqueue_keeps d src data
  refine h.setKind hs hd (fun i hi => h.dgram hs hd i (hpair ▸ hi)) ?_ rfl
  simp only [Kind.badge, hlocal]

/-- A datagram socket gets an address, and joins the group of its port. -/
def giveAddr (net : Net) (sock ns : Nat) (d : Dgram) (a : InetAddr) (g : List Nat → List Nat) :
    Net :=
  { net.setKind sock (.dgram { d with localAddr := some a }) with
    dgramPorts := fun k =>
      if k = routeKey ns "udp" a then some (g ((net.dgramPorts k).getD [])) else net.dgramPorts k }

lemma Good.giveAddr (hd : s.kind = .dgram d)
    (a : InetAddr) {g : List Nat → List Nat} (hg : ∀ l j, j ∈ g l ↔ j ∈ l ∨ j = sock) :
    (net.giveAddr sock s.netns d a g).Good ∧
      (d.localAddr = none → net.Agree → (net.giveAddr sock s.netns d a g).Agree) ∧
      net.Quiet (net.giveAddr sock s.netns d a g) := by
  have hgood := h.modify sock (f := fun s => { s with kind := .dgram { d with localAddr := some a } })
    fun _ _ => h.dgram (d := d) hs hd
  refine ⟨⟨hgood.kinds, hgood.listeners, ?_, hgood.paths, hgood.fds⟩, fun hn ha => ?_,
    @quiet_setKind net _ sock rfl⟩
  · intro k l hl i hi
    simp only [Net.giveAddr, Net.setKind, length_modify] at hl ⊢
    split at hl
    · cases hl
      rcases (hg _ i).mp hi with hi | rfl
      · exact lt_of_mem_group (h.ports k) hi
      · exact lt_of_getElem hs
    · exact h.ports k l hl i hi
  refine ha.receives hs (fun s => { s with kind := .dgram { d with localAddr := some a } }) ?_ rfl
    (ha.ports.add _ ?_ hg)
  · simp [Sock.listensAt, Kind.badge, hd]
  · simp [keyOf_eq hs, Sock.receivesAt, Kind.badge, hd, hn]

end

lemma Good.addListener (h : net.Good) (key : Key) (hs : sock < net.socks.length) :
    Good { net with listeners := fun k =>
      if k = key then some ((net.listeners k).getD [] ++ [sock]) else net.listeners k } := by
  refine ⟨h.kinds, ?_, h.ports, h.paths, h.fds⟩
  intro k g hg
  simp only at hg
  split at hg
  · cases hg
    refine ⟨by simp, fun i hi => ?_⟩
    rcases mem_append.mp hi with hi | hi
    · exact lt_of_mem_group (fun g hg => (h.listeners k g hg).2) hi
    rw [mem_singleton.mp hi]
    exact hs
  · exact h.listeners k g hg

lemma Good.add (h : net.Good) (new : List Sock) {fds : List (Nat × Nat)}
    (hnew : ∀ s ∈ new, s.kind.Within (net.socks.length + new.length))
    (hfds : ∀ p ∈ fds, p.1 < net.socks.length + new.length ∧ p.2 ≤ 1) :
    Good { net with socks := net.socks ++ new, fds := net.fds ++ fds } := by
  have hle : net.socks.length ≤ (net.socks ++ new).length := by simp
  refine ⟨?_, ?_, ?_, ?_, ?_⟩
  · intro s hs
    rcases mem_append.mp hs with hs | hs
    · exact (h.kinds s hs).mono hle
    rw [length_append]
    exact hnew s hs
  · exact fun k g hg => ⟨(h.listeners k g hg).1, fun i hi =>
      lt_of_lt_of_le ((h.listeners k g hg).2 i hi) hle⟩
  · exact fun k g hg i hi => lt_of_lt_of_le (h.ports k g hg i hi) hle
  · exact fun k i hi => lt_of_lt_of_le (h.paths k i hi) hle
  intro p hp
  rcases mem_append.mp hp with hp | hp
  · exact ⟨lt_of_lt_of_le (h.fds p hp).1 hle, (h.fds p hp).2⟩
  rw [length_append]
  exact hfds p hp

/-! ### Shared steps -/

lemma loopbackUnreachable_returns (hs : sock < net.socks.length) (dest : InetAddr) :
    Returns (net.loopbackUnreachable sock dest) fun _ => True := by
  exact .ite (fun _ => (Returns.getElem hs).bind fun _ _ => .pure trivial) fun _ => .pure trivial

lemma egressFor_returns (hs : sock < net.socks.length) :
    Returns (net.egressFor sock) fun _ => True :=
  (Returns.getElem hs).bind fun _ _ => .pure trivial

section

variable (h : net.Good)
include h

lemma listenConflict_returns (hs : sock < net.socks.length) (a : InetAddr) :
    Returns (net.listenConflict a sock) fun _ => True := by
  refine (Returns.getElem hs).bind fun s _ => ?_
  split
  · exact .pure trivial
  rename_i group hgroup
  refine (Returns.mapM (R := fun _ => True) fun i hi => ?_).bind fun _ _ => .pure trivial
  refine .ite (fun _ => ?_) fun _ => .pure trivial
  exact (Returns.getElem ((h.listeners _ _ hgroup).2 i hi)).map fun _ _ => trivial

/-- A group of listeners is never empty, so the remainder by its length is one. -/
lemma pickListener_returns (key : Key) : Returns (net.pickListener key) fun r =>
      net.Keeps r.2 ∧ r.2.socks = net.socks ∧ ∀ l, r.1 = some l → l ∈ (net.listeners key).getD [] := by
  unfold pickListener
  split
  · exact .pure ⟨h.keeps, rfl, nofun⟩
  rename_i group hgroup
  obtain ⟨hne, -⟩ := h.listeners _ _ hgroup
  rw [if_neg fun h0 => hne (length_eq_zero_iff.mp h0)]
  refine .pure ⟨⟨⟨h.kinds, h.listeners, h.ports, h.paths, h.fds⟩, rfl,
    tame_same rfl rfl rfl rfl⟩, rfl, fun l hl => ?_⟩
  exact hgroup ▸ mem_of_getElem? hl

lemma pickDgramTarget_returns (key : Key) (srcPort : Nat) :
    Returns (net.pickDgramTarget key srcPort) fun r =>
      ∀ i, r = some i → i ∈ (net.dgramPorts key).getD [] := by
  unfold pickDgramTarget
  split
  · exact .pure fun i hi => by cases hi
  rename_i group hgroup
  rw [hgroup, getD_some]
  refine (Returns.mapM (R := fun p : Nat × Sock => p.1 ∈ group) fun i hi => ?_).bind
    fun sel hsel => ?_
  · exact (Returns.getElem (h.ports _ _ hgroup i hi)).map fun _ _ => hi
  -- the target is one of the selected sockets, whichever way it is chosen
  have hmem : ∀ q : Nat × Sock → Bool, ∀ p ∈ sel.filter q, p.1 ∈ group :=
    fun q p hp => hsel p (mem_filter.mp hp).1
  refine .ite (fun _ => .pure fun i hi => by cases hi) fun _ => .ite (fun _ => .pure ?_) fun _ => .pure ?_
  · intro i hi
    obtain ⟨p, hp, rfl⟩ := map_eq_some_iff.mp hi
    exact hmem _ p (mem_of_getElem? hp)
  intro i hi
  obtain ⟨p, hp, rfl⟩ := map_eq_some_iff.mp hi
  exact hmem _ p (mem_of_getLast? hp)

lemma autoBind_keeps (hs : net.socks[sock]? = some s) (hd : s.kind = .dgram d)
    (hn : d.localAddr = none) : net.Keeps (net.autoBind sock s).2 := by
  unfold autoBind
  rw [hd]
  obtain ⟨hg, ha, hq⟩ := h.giveAddr hs hd _ (g := (· ++ [sock])) (by simp)
  exact ⟨hg, length_modify .., ha hn, hq⟩

lemma ensureDgramBound_returns (hs : net.socks[sock]? = some s)
    (hd : s.kind = .dgram d) : Returns (net.ensureDgramBound sock) fun r => net.Keeps r.2 := by
  refine (Returns.getElem (lt_of_getElem hs)).bind fun t ht => ?_
  cases hs.symm.trans ht
  rw [hd]
  dsimp only
  split
  · exact .pure h.keeps
  · exact .pure (autoBind_keeps h hs hd ‹_›)

lemma enqueueAt_returns {tgt : Nat} (ht : tgt < net.socks.length)
    (src : InetAddr) (data : List UInt8) :
    Returns (net.enqueueAt tgt src data) fun net' => net.Keeps net' := by
  refine (Returns.getElem ht).bind fun s hs => ?_
  split
  · exact .pure (h.enqueue hs ‹_› src data)
  · exact .pure h.keeps

end

/-! ### The calls -/

/-- One connection is new, and it has the client address that was to be had. -/
def Opens (net : Net) (s : Sock) (net' : Net) : Prop := ∃ sock, ∀ i c, net'.conn i = some c →
  net.conn i = some c ∨
    i = sock ∧ c.1 = s.netns ∧ c.2.1 = some (net.freshLocal s.netns (s.domain = afInet6))

/-- A call that returns, keeps the tables in step if `can`, and may connect `who`. -/
def Sound (net : Net) (can : Prop) (who : Option Sock) (x : Res) : Prop := Returns x fun r =>
  r.2.Good ∧ (can → net.Agree → r.2.Agree) ∧ (net.Quiet r.2 ∨ ∃ s, who = some s ∧ net.Opens s r.2)

section Sound

variable {can can' : Prop} {who : Option Sock} {x : Res}

lemma Fine.sound (h : net.Fine x) : net.Sound can who x :=
  Returns.mono h fun _ hr => ⟨hr.1, fun _ => hr.2.2.1, .inl hr.2.2.2⟩

lemma Good.sound (h : net.Good) : net.Sound can who (some (r, net)) := Fine.sound h.fine

lemma Sound.mono (h : net.Sound can who x) (hc : can' → can) : net.Sound can' who x :=
  Returns.mono h fun _ hr => ⟨hr.1, fun h' => hr.2.1 (hc h'), hr.2.2⟩

lemma Good.sound_tame (h : net'.Good) (ht : net.Tame net') : net.Sound can who (some (r, net')) :=
  .pure ⟨h, fun _ => ht.1, .inl ht.2⟩

end Sound

/-- A socket without address and name is bound, and not to a name that was had. -/
def fresh (net : Net) : Op → Bool
  | .bind fd mem addrlen identity =>
    ((net.sockOf fd).bind fun p => net.socks[p.1]?).all fun s =>
      decide (s.kind.badge = (none, none) ∧ s.unixBoundKey = none) &&
        match readSockaddr net.lossy mem addrlen with
        | some (some (.unix path)) =>
          net.socks.all fun t => t.unixBoundKey ≠ some (unixKey s.netns path identity)
        | _ => true
  | _ => true

/-- A `connect` with a name on a datagram socket of the `AF_UNIX` family. -/
def Names (net : Net) : Op → Prop
  | .connect fd mem addrlen _ _ _ => ∃ sock e s d name,
    net.sockOf fd = some (sock, e) ∧ net.socks[sock]? = some s ∧ s.domain = afUnix ∧
      s.kind = .dgram d ∧ readSockaddr net.lossy mem addrlen = some (some (.unix name))
  | _ => False

/-- The socket that a `connect` is made on. -/
def client (net : Net) : Op → Option Sock
  | .connect fd .. => (net.sockOf fd).bind fun p => net.socks[p.1]?
  | _ => none

section

variable (h : net.Good)
include h

lemma socket_sound (netns domain baseType protocol : Nat) (nonblock hostIcmp : Bool) :
    net.Sound True none (net.socket netns domain baseType protocol nonblock hostIcmp) := by
  -- one new socket that refers to no other, and a descriptor of its first end
  have hnew : ∀ (n : Net) kind, n.Good → net.Tame n → (∀ m, kind.Within m) →
      kind.badge = (none, none) → kind.isPair = false → net.Sound True none
        (some (.ret n.fds.length, (n.addSock (newSock netns (domain % 2 ^ 16) kind nonblock)).addFd
          n.socks.length 0)) := by
    intro n kind h ht hw hb hk
    refine Good.sound_tame (h.add [_] (fun t ht => ?_) (fun p hp => ?_))
      (ht.trans (tame_append fun t ht => ?_))
    · rw [mem_singleton.mp ht]
      exact hw _
    · rw [mem_singleton.mp hp]
      exact ⟨by simp, Nat.zero_le _⟩
    rw [mem_singleton.mp ht]
    refine ⟨rfl, hb, ?_⟩
    cases kind with
    | pair p => cases hk
    | _ => rfl
  refine .ite (fun _ => ?_) fun _ => .ite (fun _ => h.sound) fun _ => ?_
  · refine .ite (fun _ => h.sound) fun _ => .ite (fun _ => h.sound) fun _ => ?_
    exact hnew net _ h (.refl _) (fun _ => trivial) rfl rfl
  refine .ite (fun _ => .ite (fun _ => h.sound) fun _ => ?_) fun _ =>
    .ite (fun _ => h.sound) fun _ => ?_
  · exact hnew { net with pingIdent := net.pingIdent + 1 } _
      ⟨h.kinds, h.listeners, h.ports, h.paths, h.fds⟩ (tame_same rfl rfl rfl rfl)
      (fun _ => nofun) rfl rfl
  refine hnew net _ h (.refl _) (fun n => ?_) ?_ ?_ <;> split
  · exact nofun
  · trivial
  all_goals rfl

lemma socketpair_sound (netns domain baseType : Nat) (nonblock writable : Bool) :
    net.Sound True none (net.socketpair netns domain baseType nonblock writable) := by
  refine .ite (fun _ => h.sound) fun _ => .ite (fun _ => h.sound) fun _ =>
    .ite (fun _ => ?_) fun _ => ?_ <;>
  simp only [addSock, addFd, append_assoc, cons_append, nil_append]
  · exact Good.sound_tame (h.add _ (by simp [newSock, Kind.Within]) (by simp))
      (tame_append (by simp [newSock, Kind.badge, Sock.conn, Dgram.new]))
  · exact Good.sound_tame (h.add _ (by simp [newSock, Kind.Within]) (by simp))
      (tame_append (by simp [newSock, Kind.badge, Sock.conn, afUnix, afInet, afInet6]))

lemma bindNetlink_fine (hs : sock < net.socks.length) (mem : Mem)
    (addrlen : Nat) : net.Fine (net.bindNetlink sock mem addrlen) := by
  refine .ite (fun _ => h.fine) fun _ => ?_
  split
  · exact h.fine
  rename_i b hb
  have hl : b.length = 8 := length_readVec hb
  iterate 2 refine (byte_returns (by omega)).bind fun _ _ => ?_
  refine .ite (fun _ => h.fine) fun _ => ?_
  iterate 4 refine (byte_returns (by omega)).bind fun _ _ => ?_
  refine (Returns.getElem hs).bind fun s hsock => ?_
  split
  next hk => exact h.fine_setKind hsock hk trivial rfl rfl
  · exact h.fine

lemma bindUnix_sound (hs : net.socks[sock]? = some s) (path : List UInt8) (identity : Option Key) :
    net.Sound (s.kind.badge.1 = none ∧ s.unixBoundKey = none ∧
      ∀ t ∈ net.socks, t.unixBoundKey ≠ some (unixKey s.netns path identity)) none
      (net.bindUnix sock s path identity) := by
  refine .ite (fun _ => h.sound) fun _ => ?_
  -- the key is recorded whatever the kind
  generalize hkey : unixKey s.netns path identity = key
  have hg := h.modify sock (f := fun t => { t with unixBoundKey := some key }) h.kinds
  have hnew : (net.socks.modify sock fun t => { t with unixBoundKey := some key })[sock]?
      = some { s with unixBoundKey := some key } := by
    simp [hs]
  have hq : net.Quiet { net with
      socks := net.socks.modify sock fun t => { t with unixBoundKey := some key } } :=
    quiet_modify fun _ _ _ hc => hc
  split
  next hk =>
    refine .pure ⟨hg.modify sock fun _ _ => trivial, fun hc ha => ?_,
      .inl (hq.trans (quiet_setKind sock rfl))⟩
    exact (ha.name hs hc.1 hc.2.1 hc.2.2).setKind hnew hk rfl
  · refine .pure ⟨⟨hg.kinds, hg.listeners, hg.ports, fun k i hi => ?_, hg.fds⟩, fun hc ha => ?_,
      .inl hq⟩
    · simp only at hi
      split at hi
      · cases hi
        simpa using lt_of_getElem hs
      · exact hg.paths k i hi
    have ha' := ha.name hs hc.1 hc.2.1 hc.2.2
    refine ⟨ha'.listeners, ha'.ports, ha'.names, fun k i hi => ?_⟩
    simp only at hi
    split at hi
    next hk =>
      cases hi
      rw [hk, keyOf, hnew]
      rfl
    · exact ha'.paths k i hi
  · exact .pure ⟨hg, fun hc ha => ha.name hs hc.1 hc.2.1 hc.2.2, .inl hq⟩

lemma bindInet_sound (hs : net.socks[sock]? = some s) (a : InetAddr) :
    net.Sound (s.kind.badge.2 = none) none (net.bindInet sock s a) := by
  refine .ite (fun _ => h.sound) fun _ => ?_
  dsimp only
  split
  · exact h.sound
  refine .ite (fun _ => h.sound) fun _ => .ite (fun _ => h.sound) fun _ => ?_
  split
  next hk =>
    exact Good.sound_tame (h.modify sock fun _ _ => trivial) (tame_setKind hs hk rfl rfl)
  next d hd =>
    obtain ⟨hg, ha, hq⟩ := h.giveAddr hs hd _ (g := fun l => l.filter (· ≠ sock) ++ [sock]) (by grind)
    refine .pure ⟨hg, fun hn => ha ?_, .inl hq⟩
    rwa [hd] at hn
  · exact h.sound

lemma Good.sockOf {fd : Nat} (hp : net.sockOf fd = some (sock, e)) :
    sock < net.socks.length ∧ e ≤ 1 :=
  h.fds _ (mem_of_getElem? hp)

lemma bind_sound (fd : Nat) (mem : Mem) (addrlen : Nat) (identity : Option Key) :
    net.Sound (net.fresh (.bind fd mem addrlen identity) = true) none
      (net.bind fd mem addrlen identity) := by
  unfold bind
  cases hp : net.sockOf fd with
  | none => exact h.sound
  | some p =>
    obtain ⟨hlt, -⟩ := h.sockOf hp
    refine (Returns.getElem hlt).bind fun s hs => .ite (fun _ => ?_) fun _ => ?_
    · exact (bindNetlink_fine h hlt mem addrlen).sound
    obtain ⟨parsed, hr, -⟩ := readSockaddr_returns net.lossy mem addrlen
    simp only [fresh, hp, hs, hr, bind_eq_bind, bind_some, all_some,
      Bool.and_eq_true, decide_eq_true_eq]
    rcases parsed with _ | path | a
    · exact h.sound
    · refine (bindUnix_sound h hs _ identity).mono fun hc => ⟨by rw [hc.1.1], hc.1.2, fun t ht => ?_⟩
      simpa using all_eq_true.mp hc.2 t ht
    · exact (bindInet_sound h hs _).mono fun hc => by rw [hc.1.1]

lemma listenOn_fine (hs : net.socks[sock]? = some s) {b : Option Addr}
    (hk : s.kind = .idle b) (bound : Option Addr) : net.Fine (net.listenOn sock s bound) := by
  have hlt := lt_of_getElem hs
  refine Returns.bind (P := fun _ => True) ?_ fun conflict _ => .ite (fun _ => h.fine) fun _ => ?_
  · split
    · exact listenConflict_returns h hlt _
    · exact .pure trivial
  cases bound with
  | none => exact h.fine_setKind hs hk nofun rfl rfl
  | some a =>
    have hg : Good (net.setKind sock (.listener (some a) [])) := h.modify sock fun _ _ => nofun
    have hlen : (net.setKind sock (.listener (some a) [])).socks.length = net.socks.length :=
      length_modify ..
    refine Keeps.fine ⟨hg.addListener _ (hlen ▸ hlt), hlen, fun ha => ?_,
      @quiet_setKind net _ sock rfl⟩
    refine ha.listens hs (fun s => { s with kind := .listener (some a) [] }) ?_ rfl
      (ha.listeners.add _ ?_ (g := (· ++ [sock])) (by simp))
    · simp [Sock.receivesAt, Kind.badge, hk]
    · simp [keyOf_eq hs, Sock.listensAt, Kind.badge, hk]

lemma listen_fine (fd : Nat) : net.Fine (net.listen fd) := by
  unfold listen
  split
  · exact h.fine
  rename_i sock e hp
  refine (Returns.getElem (h.sockOf hp).1).bind fun s hs => ?_
  split
  · exact h.fine
  · exact listenOn_fine h hs ‹_› _
  · exact h.fine

lemma connectHost_fine (hs : sock < net.socks.length) (e : Nat)
    (answer : HostConnect) : net.Fine (net.connectHost sock e answer) := by
  refine (Returns.getElem hs).bind fun s hsock => ?_
  split
  next hidle =>
    refine .ite (fun _ => h.fine) fun _ => (egressFor_returns hs).bind fun up _ => ?_
    refine .ite (fun _ => h.fine) fun _ => ?_
    split
    · exact h.fine
    · exact h.fine_setKind hsock hidle trivial rfl rfl
    have hk := h.setKind hsock hidle (k := .host s.nonblock true false) trivial rfl rfl
    exact .ite (fun _ => hk.fine) fun _ => hk.fine
  · exact h.fine

lemma setPeer_fine (hs : net.socks[sock]? = some s) (hd : s.kind = .dgram d)
    (peer : InetAddr) : net.Fine (net.setPeer sock peer) := by
  refine (ensureDgramBound_returns h hs hd).bind ?_
  rintro ⟨a, net'⟩ hk
  refine hk.trans ?_
  obtain ⟨hg, hlen, -⟩ := hk
  refine (Returns.getElem (hlen ▸ lt_of_getElem hs)).bind fun s hsock => ?_
  split
  next d hd =>
    exact (hg.setKind hsock hd (k := .dgram { d with peer := some peer })
      (hg.dgram (d := d) hsock hd) rfl rfl).fine
  · exact hg.fine

lemma connectLocal_sound (hs : net.socks[sock]? = some s) (e : Nat) (key : Key) :
    net.Sound True (some s) (net.connectLocal sock e s key) := by
  unfold connectLocal
  split
  next hidle =>
    refine .ite (fun _ => h.sound) fun _ => (pickListener_returns h key).bind ?_
    rintro ⟨chosen, net'⟩ ⟨hk, hsocks, hchosen⟩
    dsimp only at hk hsocks hchosen ⊢
    obtain ⟨hg, hlen, ht⟩ := hk
    rw [← hsocks] at hs
    split
    · exact hg.sound_tame ht
    rename_i l
    have hlt := lt_of_mem_group (fun g hg => (h.listeners key g hg).2) (hchosen l rfl)
    refine (Returns.getElem (hlen ▸ hlt)).bind fun ls hls => ?_
    split
    next addr backlog hl =>
      refine .ite (fun _ => hg.sound_tame ht) fun _ => ?_
      have hb := hg.within hls
      rw [hl] at hb
      have hne : sock ≠ l := by
        rintro rfl
        cases hs.symm.trans hls
        cases hidle.symm.trans hl
      generalize hp : ({ newPair false with
        nonblock := (s.nonblock, false), refs := (s.refs, 1)
        addrs := if s.domain ≠ afUnix then
            (some (net'.freshLocal s.netns (s.domain = afInet6)),
              some (peerAddr (s.domain = afInet6) addr))
          else (none, none) } : Pair) = p
      -- the client's socket becomes the pair, and joins the backlog
      have hpair : (net'.setKind sock (.pair p)).Good := hg.modify sock fun _ _ => trivial
      have hls' := hls
      rw [← List.getElem?_modify_ne _ _ hne] at hls'
      have hback := hpair.setKind hls' hl (k := .listener addr (backlog ++ [sock])) (by
        intro i hi
        rw [Net.setKind, length_modify]
        rcases mem_append.mp hi with hi | hi
        · exact hb i hi
        rw [mem_singleton.mp hi]
        exact lt_of_getElem hs) rfl rfl
      have hagree := fun ha => hback.2.2.1 ((ht.1 ha).setKind hs hidle (k := .pair p) rfl)
      -- its slot is the only one with something new
      have hopens : net.Opens s ((net'.setKind sock (.pair p)).setKind l
          (.listener addr (backlog ++ [sock]))) := by
        refine ⟨sock, fun i c hc => ?_⟩
        have hc := hback.2.2.2 i c hc
        simp only [conn, Net.setKind, List.getElem?_modify, ← hsocks] at hc ⊢
        by_cases hi : sock = i
        · subst hi
          simp only [hs, if_true, Sock.conn] at hc
          obtain ⟨⟨hdom, -⟩, hc⟩ := ite_none_right_eq_some.mp hc
          cases hc
          have hunix : s.domain ≠ afUnix := by
            rcases hdom with hdom | hdom <;> rw [hdom] <;> decide
          rw [← hp, if_pos hunix]
          exact .inr ⟨rfl, rfl, by simp only [freshLocal, ephemeralPort, addrInUse, hsocks]⟩
        · exact .inl (by simpa [hi] using hc)
      exact .ite (fun _ => .pure ⟨hback.1, fun _ => hagree, .inr ⟨s, rfl, hopens⟩⟩)
        fun _ => .pure ⟨hback.1, fun _ => hagree, .inr ⟨s, rfl, hopens⟩⟩
    · exact hg.sound_tame ht
  · exact h.sound

/-! ### The call that aborts -/

lemma connectTo_sound (hsock : net.socks[sock]? = some s) (e : Nat)
    (target : Addr) (identity : Option Key) (answer : HostConnect)
    (hn : ∀ name d, target = .unix name → s.kind ≠ .dgram d) :
    net.Sound True (some s) (net.connectTo sock e s target identity answer) := by
  have hs := lt_of_getElem hsock
  unfold connectTo
  split
  next dest =>
    refine (loopbackUnreachable_returns hs dest).bind fun r _ => ?_
    split
    · exact h.sound
    split
    next hd =>
      have hpeer : net.Sound True (some s) _ := (setPeer_fine h hsock hd dest).sound
      refine .ite (fun _ => hpeer) fun _ => .ite (fun _ => ?_) fun _ => hpeer
      exact (egressFor_returns hs).bind fun _ _ => .ite (fun _ => h.sound) fun _ => hpeer
    · refine .ite (fun _ => (connectHost_fine h hs e answer).sound) fun _ => ?_
      exact connectLocal_sound h hsock e _
  · split
    · exact absurd ‹_› (hn _ _ rfl)
    · exact connectLocal_sound h hsock e _

lemma connect_sound (fd : Nat) (mem : Mem) (addrlen : Nat)
    (identity : Option Key) (answer : HostConnect) (poll : HostPoll)
    (hn : ¬net.Names (.connect fd mem addrlen identity answer poll)) :
    net.Sound True (net.client (.connect fd mem addrlen identity answer poll))
      (net.connect fd mem addrlen identity answer poll) := by
  unfold connect
  cases hp : net.sockOf fd with
  | none => exact h.sound
  | some p =>
    obtain ⟨hs, -⟩ := h.sockOf hp
    refine (Returns.getElem hs).bind fun s hsock => ?_
    have hwho : net.client (.connect fd mem addrlen identity answer poll) = some s := by
      rw [client, hp, bind_some, hsock]
    split
    next hk =>
      refine .ite (fun _ => h.sound) fun _ => ?_
      split
      · exact .ite (fun _ => h.sound) fun _ => h.sound
      · exact Good.sound_tame (h.modify _ fun _ _ => trivial) (tame_setKind hsock hk rfl rfl)
      · exact Good.sound_tame (h.modify _ fun _ _ => trivial) (tame_setKind hsock hk rfl rfl)
    obtain ⟨r, hr, -⟩ := readSockaddr_returns net.lossy mem addrlen
    rw [hr]
    refine Returns.bind (P := fun t => t = r) (.pure rfl) fun t ht => ?_
    subst ht
    split
    · exact h.sound
    rename_i target
    rw [hwho]
    refine .ite (fun _ => h.sound) fun hm => connectTo_sound h hsock _ target identity answer ?_
    -- a name passes the family check on an `AF_UNIX` socket only
    intro name d ht hd
    subst ht
    have hdom : s.domain = afUnix := by simpa using hm
    exact hn ⟨_, _, s, d, name, hp, hsock, hdom, hd, hr⟩

lemma accept4_sound (fd : Nat) (nonblock : Bool) :
    net.Sound True none (net.accept4 fd nonblock) := by
  unfold accept4
  split
  · exact h.sound
  rename_i sock e hp
  obtain ⟨hs, -⟩ := h.sockOf hp
  refine (Returns.getElem hs).bind fun s hsock => ?_
  split
  next addr backlog hl =>
    have hb := h.within hsock
    rw [hl] at hb
    split
    · exact .ite (fun _ => h.sound) fun _ => h.sound
    rename_i p rest
    have hk := h.setKind hsock hl (k := .listener addr rest) (fun i hi => hb i (.tail _ hi)) rfl rfl
    have hp : p < net.socks.length := hb p (.head _)
    refine (Returns.getElem (hk.2.1 ▸ hp)).bind fun ps hps => ?_
    -- the far end of the pair gets a descriptor
    have hfd : ∀ n : Net, (net.setKind sock (.listener addr rest)).Keeps n →
        net.Sound True none (some (.ret n.fds.length, n.addFd p 1)) := by
      intro n hn
      refine Good.sound_tame ⟨hn.1.kinds, hn.1.listeners, hn.1.ports, hn.1.paths, fun q hq => ?_⟩
        ((hk.2.2.trans hn.2.2).trans (tame_same rfl rfl rfl rfl))
      rcases mem_append.mp hq with hq | hq
      · exact hn.1.fds q hq
      rw [mem_singleton.mp hq]
      exact ⟨(hn.2.1.trans hk.2.1).symm ▸ hp, le_rfl⟩
    split
    next hpair => exact hfd _ (hk.1.setPair hps hpair rfl id)
    · exact hfd _ hk.1.keeps
  · exact h.sound

/-! ### Sending -/

lemma multicastReceivers_returns (hs : sock < net.socks.length) (dest : InetAddr) :
    Returns (net.multicastReceivers sock dest) fun l => ∀ i ∈ l, i < net.socks.length := by
  refine (Returns.getElem hs).bind fun s _ => ?_
  split
  · exact .pure nofun
  rename_i bound hbound
  refine (Returns.mapM (R := fun o : Option Nat => ∀ i, o = some i → i < net.socks.length)
    fun i hi => ?_).bind fun kept hkept => .pure ?_
  · have hi := h.ports _ _ hbound i hi
    refine (Returns.getElem hi).bind fun t _ => ?_
    split
    · refine .pure fun j hj => ?_
      split at hj
      · cases hj
        exact hi
      · cases hj
    · exact .pure nofun
  · intro i hi
    obtain ⟨o, ho, rfl⟩ := mem_filterMap.mp hi
    exact hkept _ ho i rfl

lemma multicastSend_fine (hsock : net.socks[sock]? = some s)
    (hd : s.kind = .dgram d) (data : List UInt8) (dest : InetAddr) :
    net.Fine (net.multicastSend sock data dest) := by
  have hs := lt_of_getElem hsock
  refine (Returns.getElem hs).bind fun s _ => .ite (fun _ => h.fine) fun _ => ?_
  refine (ensureDgramBound_returns h hsock hd).bind ?_
  rintro ⟨src, net'⟩ hk
  refine hk.trans ?_
  obtain ⟨hg, hlen, -⟩ := hk
  refine (Returns.getElem (hlen ▸ hs)).bind fun _ _ => .ite (fun _ => ?_) fun _ => hg.fine
  refine (multicastReceivers_returns hg (hlen ▸ hs) dest).bind fun targets ht => ?_
  -- every delivery leaves the number of sockets alone, so the next target is still there
  refine (Returns.foldlM (I := fun n => net'.Keeps n) hg.keeps fun n hn tgt htgt => ?_).bind
    fun n hn => .pure hn
  refine (enqueueAt_returns hn.1 (hn.2.1 ▸ ht tgt htgt) _ data).mono fun m hm => ?_
  exact ⟨hm.1, hm.2.1.trans hn.2.1, hn.2.2.trans hm.2.2⟩

end

lemma setIcmp4Checksum_returns {msg : List UInt8} (h : 4 ≤ msg.length) :
    Returns (setIcmp4Checksum msg) fun m => m.length = msg.length := by
  refine (patch_returns (by simpa using h)).bind fun m hm => ?_
  refine (patch_returns ?_).mono fun m' hm' => hm'.trans hm
  rw [hm]
  simpa [toBe16] using h

lemma icmpMessage_returns (icmp : Icmp) (v6 : Bool) (hd : 8 ≤ data.length) :
    Returns (icmpMessage icmp v6 data) fun r => ∀ m, r = some m → m.length = data.length := by
  refine .ite (fun _ => .pure ?_) fun _ => (byte_returns (by omega)).bind fun _ _ => ?_
  · intro m hm
    cases hm
    rfl
  refine .ite (fun _ => .pure nofun) fun _ => ?_
  refine (patch_returns (by simp [toBe16]; omega)).bind fun m hm => ?_
  refine .ite (fun _ => .pure ?_) fun _ => ?_
  · intro m' hm'
    cases hm'
    exact hm
  refine (setIcmp4Checksum_returns (by omega)).bind fun m' hm' => .pure ?_
  intro m'' hm''
  cases hm''
  exact hm'.trans hm

lemma loopbackIpPacket_returns (a : InetAddr) (msg : List UInt8) :
    Returns (loopbackIpPacket a msg) fun _ => True := by
  refine .ite (fun _ => .pure trivial) fun _ => ?_
  refine (slice_returns (by simp [toBe16])).bind fun header _ => ?_
  exact (patch_returns (by simp [toBe16])).bind fun _ _ => .pure trivial

lemma shapeIcmp_returns (icmp : Icmp) (pkt : List UInt8) :
    Returns (shapeIcmp icmp pkt) fun _ => True := by
  unfold shapeIcmp
  split
  · exact .pure trivial
  refine .ite (fun _ => .pure trivial) fun hlen => ?_
  refine (byte_returns (by omega)).bind fun _ _ => (slice_returns (by omega)).bind fun _ _ => ?_
  exact .ite (fun _ => .pure trivial) fun _ => .pure trivial

lemma icmpAnswer_returns (icmp : Icmp) (dest : InetAddr) {msg : List UInt8}
    (h : 8 ≤ msg.length) : Returns (icmpAnswer icmp dest msg) fun _ => True := by
  refine (byte_returns (by omega)).bind fun _ _ => .ite (fun _ => ?_) fun _ => .pure trivial
  refine (patch_returns (by simp; omega)).bind fun reply hreply => ?_
  refine Returns.bind (P := fun _ => True) ?_ fun reply _ => ?_
  · refine .ite (fun _ => .pure trivial) fun _ => ?_
    exact (setIcmp4Checksum_returns (by omega)).mono fun _ _ => trivial
  · exact (loopbackIpPacket_returns dest reply).bind fun pkt _ => shapeIcmp_returns icmp pkt

lemma icmpSend_fine (h : net.Good) (hs : sock < net.socks.length) (data : List UInt8)
    (dest : InetAddr) (answer : HostSend) : net.Fine (net.icmpSend sock data dest answer) := by
  refine (Returns.getElem hs).bind fun s hsock => ?_
  split
  next d hd =>
    split
    · exact h.fine
    rename_i icmp _
    refine .ite (fun _ => h.fine) fun hlen => ?_
    refine (icmpMessage_returns icmp dest.v6 (by omega)).bind fun msg hmsg => ?_
    split
    · exact h.fine
    rename_i msg
    have hmsg : msg.length = data.length := hmsg msg rfl
    refine .ite (fun _ => ?_) fun _ => .ite (fun _ => h.fine) fun _ => ?_
    · refine (icmpAnswer_returns icmp dest (by omega)).bind fun p _ => ?_
      split
      · exact (h.enqueue hsock hd ..).fine
      · exact h.fine
    · split <;> exact h.fine
  · exact h.fine

lemma hostUdpSend_fine (h : net.Good) (hs : sock < net.socks.length) (data : List UInt8)
    (opens : Bool) (answer : HostSend) : net.Fine (net.hostUdpSend sock data opens answer) := by
  refine (Returns.getElem hs).bind fun s hsock => ?_
  split
  next d hd =>
    refine .ite (fun _ => ?_) fun _ => (egressFor_returns hs).bind fun _ _ => ?_
    · split <;> exact h.fine
    refine .ite (fun _ => ?_) fun _ => h.fine
    have hk := h.setKind hsock hd (k := .dgram { d with host := true })
      (h.dgram (d := d) hsock hd) rfl rfl
    split <;> exact hk.fine
  · exact h.fine

lemma udpDeliver_fine (h : net.Good) (hs : net.socks[sock]? = some s) (hd : s.kind = .dgram d)
    (data : List UInt8) (dest : InetAddr) : net.Fine (net.udpDeliver sock data dest) := by
  refine (ensureDgramBound_returns h hs hd).bind ?_
  rintro ⟨src, net'⟩ hk
  refine hk.trans ?_
  obtain ⟨hg, hlen, -⟩ := hk
  refine (Returns.getElem (hlen ▸ lt_of_getElem hs)).bind fun s _ => ?_
  refine (pickDgramTarget_returns hg ..).bind fun tgt htgt => ?_
  split
  · have hlt := lt_of_mem_group (hg.ports _) (htgt _ rfl)
    exact (enqueueAt_returns hg hlt src data).bind fun _ hn => .pure hn
  · exact hg.fine

/-! ### Netlink requests -/

lemma namedLo_returns (body : List UInt8) (i : Nat) : Returns (namedLo body i) fun _ => True := by
  unfold namedLo
  split
  · refine (byte_returns (by omega)).bind fun b0 _ => (byte_returns (by omega)).bind fun b1 _ => ?_
    iterate 2 refine (byte_returns (by omega)).bind fun _ _ => ?_
    split
    · exact .pure trivial
    · exact .ite (fun _ => .pure trivial) fun _ => namedLo_returns body _
  · exact .pure trivial
termination_by body.length - i
decreasing_by
  unfold nlmsgAlign
  omega

lemma setLink_returns (h : net.Good) (ns : Nat) (privileged : Bool) (body : List UInt8) :
    Returns (net.setLink ns privileged body) fun r => net.Keeps r.2 := by
  refine .ite (fun _ => .pure h.keeps) fun hlen => ?_
  refine (slice_returns (by omega)).bind fun msg hmsg => ?_
  iterate 12 refine (byte_returns (by omega)).bind fun _ _ => ?_
  refine Returns.bind (P := fun _ => True) ?_ fun named _ => ?_
  · exact .ite (fun _ => namedLo_returns body 32) fun _ => .pure trivial
  refine .ite (fun _ => .pure h.keeps) fun _ => .ite (fun _ => .pure h.keeps) fun _ =>
    .ite (fun _ => .pure h.keeps) fun _ => .ite (fun _ => .pure h.keeps) fun _ => .pure ?_
  exact ⟨⟨h.kinds, h.listeners, h.ports, h.paths, h.fds⟩, rfl, tame_same rfl rfl rfl rfl⟩

lemma nlReplies_returns (h : net.Good) (ns typ flags family : Nat) (privileged : Bool)
    (body : List UInt8) :
    Returns (net.nlReplies ns typ flags family privileged body) fun r => net.Keeps r.2 := by
  refine .ite (fun _ => ?_) fun _ => .ite (fun _ => .pure h.keeps) fun _ =>
    .ite (fun _ => .pure h.keeps) fun _ => .ite (fun _ => .pure h.keeps) fun _ => .pure h.keeps
  exact (setLink_returns h ns privileged body).bind fun _ hk => .pure hk

lemma handleNetlinkFrom_fine {net : Net} (h : net.Good) (hs : sock < net.socks.length)
    (data : List UInt8) (privileged : Bool) (offset : Nat) :
    net.Fine (net.handleNetlinkFrom sock data privileged offset) := by
  unfold handleNetlinkFrom
  split
  · refine (slice_returns (by omega)).bind fun hdr hhdr => ?_
    iterate 4 refine (byte_returns (by omega)).bind fun _ _ => ?_
    dsimp only
    split
    · exact h.fine
    iterate 4 refine (byte_returns (by omega)).bind fun _ _ => ?_
    refine (Returns.getElem hs).bind fun s _ => ?_
    refine (slice_returns (by omega)).bind fun body _ => ?_
    refine (nlReplies_returns h ..).bind ?_
    rintro ⟨replies, net'⟩ hk
    refine hk.trans ?_
    obtain ⟨hg, hlen, -⟩ := hk
    refine (Returns.getElem (hlen ▸ hs)).bind fun s hsock => ?_
    split
    next pid queued hkind =>
      refine .ite (fun _ => hg.fine) fun _ => ?_
      have hn := hg.setKind hsock hkind (k := .netlink pid (queued + replies)) trivial rfl rfl
      exact hn.trans (handleNetlinkFrom_fine hn.1 (by rw [hn.2.1, hlen]; exact hs) ..)
    · exact handleNetlinkFrom_fine hg (hlen ▸ hs) ..
  · exact h.fine
termination_by data.length - offset
decreasing_by
  all_goals
    unfold nlmsgAlign
    omega

/-! ### Sending, assembled -/

lemma writeDgram_fine (h : net.Good) (hs : net.socks[sock]? = some s)
    (hd : s.kind = .dgram d) (data : List UInt8) (call : SendCall) :
    net.Fine (net.writeDgram sock d data call) := by
  have hlt := lt_of_getElem hs
  unfold writeDgram
  split
  next tgt ht => exact (enqueueAt_returns h (h.dgram hs hd tgt ht) _ data).bind fun _ hn => .pure hn
  split
  · exact h.fine
  exact .ite (fun _ => icmpSend_fine h hlt ..) fun _ =>
    .ite (fun _ => multicastSend_fine h hs hd ..) fun _ =>
    .ite (fun _ => hostUdpSend_fine h hlt ..) fun _ => udpDeliver_fine h hs hd ..

lemma at2_returns {α : Type} (a : α × α) (he : e ≤ 1) : Returns (at2 a e) fun _ => True := by
  refine .ite (fun _ => .pure trivial) fun h0 => ?_
  rw [if_pos (by omega)]
  exact .pure trivial

lemma other_returns (he : e ≤ 1) : Returns (other e) fun far => far ≤ 1 := by
  unfold other
  rw [if_pos he]
  exact .pure (by omega)

lemma writePair_fine (h : net.Good) (hs : net.socks[sock]? = some s) {p : Pair}
    (hk : s.kind = .pair p) (he : e ≤ 1) (data : List UInt8) (call : SendCall) :
    net.Fine (net.writePair sock e s p data call) := by
  refine (other_returns he).bind fun far hfar => ?_
  refine (at2_returns p.shutWr he).bind fun _ _ => (at2_returns p.refs hfar).bind fun _ _ => ?_
  refine .ite (fun _ => h.fine) fun _ => (at2_returns p.toEnd hfar).bind fun queue _ => ?_
  refine (slice_returns (by omega)).bind fun bytes _ => ?_
  have hk := h.setPair (q := { p with toEnd := set2 p.toEnd far (queue ++ bytes) }) hs hk rfl id
  refine .ite (fun _ => hk.fine) fun _ => (at2_returns p.nonblock he).bind fun _ _ => ?_
  exact .ite (fun _ => .ite (fun _ => hk.fine) fun _ => hk.fine) fun _ => hk.fine

lemma writeSocket_fine (h : net.Good) (hs : sock < net.socks.length) (he : e ≤ 1)
    (data : List UInt8) (call : SendCall) : net.Fine (net.writeSocket sock e data call) := by
  refine (Returns.getElem hs).bind fun s hsock => ?_
  split
  · exact handleNetlinkFrom_fine h hs ..
  next d hd => exact writeDgram_fine h hsock hd data call
  · refine .ite (fun _ => h.fine) fun _ => ?_
    split
    · exact h.fine
    · exact .ite (fun _ => h.fine) fun _ => h.fine
    · exact h.fine
  · exact writePair_fine h hsock ‹_› he data call
  · exact h.fine

lemma sendInet_fine (h : net.Good) (hsock : net.socks[sock]? = some s) (hd : s.kind = .dgram d)
    (data : List UInt8) (dest : InetAddr) (call : SendCall) :
    net.Fine (net.sendInet sock d data dest call) := by
  have hs := lt_of_getElem hsock
  refine (loopbackUnreachable_returns hs dest).bind fun _ _ => ?_
  split
  · exact h.fine
  refine .ite (fun _ => icmpSend_fine h hs ..) fun _ =>
    .ite (fun _ => multicastSend_fine h hsock hd ..) fun _ => .ite (fun _ => ?_) fun _ =>
    udpDeliver_fine h hsock hd ..
  refine (egressFor_returns hs).bind fun _ _ => ?_
  exact .ite (fun _ => h.fine) fun _ => hostUdpSend_fine h hs ..

lemma sendto_fine (h : net.Good) (fd : Nat) (buf : Mem) (len : Nat)
    (dest : Option (Mem × Nat)) (identity : Option Key) (call : SendCall) :
    net.Fine (net.sendto fd buf len dest identity call) := by
  unfold sendto
  split
  · exact h.fine
  rename_i data _
  unfold sendBytes
  split
  · exact h.fine
  rename_i sock e hp
  have ⟨hs, he⟩ := h.sockOf hp
  refine (Returns.getElem hs).bind fun s hsock => ?_
  split
  · exact writeSocket_fine h hs he data call
  refine .ite (fun _ => writeSocket_fine h hs he data call) fun _ => ?_
  refine (readSockaddr_returns ..).bind fun parsed _ => ?_
  split
  · exact sendInet_fine h hsock ‹_› data _ call
  · split
    next tgt ht => exact (enqueueAt_returns h (h.paths _ _ ht) _ data).bind fun _ hn => .pure hn
    · exact h.fine
  · exact h.fine

/-! ### Every run -/

lemma Good.init (egress : Option (Option (Bool × Bool))) (lossy : List UInt8 → List UInt8) :
    (Net.init egress lossy).Good :=
  ⟨fun _ hs => absurd hs not_mem_nil, nofun, nofun, nofun, nofun⟩

lemma call_sound (h : net.Good) (op : Op) (hn : ¬net.Names op) :
    net.Sound (net.fresh op = true) (net.client op) (net.call op) := by
  cases op with
  | socket ns domain type protocol nonblock hostIcmp => exact (socket_sound h ..).mono fun _ => trivial
  | socketpair ns domain type nonblock writable => exact (socketpair_sound h ..).mono fun _ => trivial
  | bind fd mem addrlen identity => exact bind_sound h ..
  | listen fd => exact (listen_fine h fd).sound
  | connect fd mem addrlen identity answer poll =>
    exact (connect_sound h _ _ _ _ _ _ hn).mono fun _ => trivial
  | accept4 fd nonblock => exact (accept4_sound h fd nonblock).mono fun _ => trivial
  | sendto fd buf len dest identity call => exact (sendto_fine h ..).sound

lemma call_eq_none {op : Op} (hn : net.Names op) : net.call op = none := by
  cases op with
  | connect fd mem addrlen identity answer poll =>
    obtain ⟨sock, e, s, d, name, hp, hs, hdom, hd, hr⟩ := hn
    simp [call, connect, connectTo, hp, hs, hdom, hd, hr]
  | _ => exact hn.elim

/-- The states of all runs; the machine does not go on from an abort. -/
abbrev Reach := Run.Reach step fun _ _ => True

lemma Good.call (h : net.Good) {op : Op} (hr : net.call op = some (r, net')) :
    net'.Good ∧ (net.fresh op = true → net.Agree → net'.Agree) ∧
      (net.Quiet net' ∨ ∃ s, net.client op = some s ∧ net.Opens s net') := by
  by_cases hn : net.Names op
  · rw [call_eq_none hn] at hr
    cases hr
  have ⟨q, hq, hs⟩ := call_sound h op hn
  cases hr.symm.trans hq
  exact hs

lemma Good.of_reach {egress : Option (Option (Bool × Bool))}
    {lossy : List UInt8 → List UInt8} (h : Reach (Net.init egress lossy) net) : net.Good := by
  refine Run.Reach.invariant (P := Good) h (.init egress lossy) fun net op net' hg _ hstep => ?_
  obtain ⟨r, hr, rfl⟩ := map_eq_some_iff.mp hstep
  exact (hg.call hr).1

/-- **Calls return.** Over every run no call panics, except a `connect` with a name on an `AF_UNIX`
datagram socket, which always does. -/
theorem call_returns_iff {egress : Option (Option (Bool × Bool))}
    {lossy : List UInt8 → List UInt8} (h : Reach (Net.init egress lossy) net) (op : Op) :
    (net.call op).isSome ↔ ¬net.Names op := by
  constructor
  · intro hsome hn
    rw [call_eq_none hn] at hsome
    cases hsome
  intro hn
  obtain ⟨r, hr, -⟩ := call_sound (.of_reach h) op hn
  rw [hr]
  rfl

def nameMem : Mem := fun i => [1, 0, 97][i]?

def connected : List Op :=
  [.socket 0 afUnix sockStream 0 false false, .bind 0 nameMem 3 none, .listen 0,
    .socket 0 afUnix sockStream 0 false false, .connect 1 nameMem 3 none .up .up,
    .accept4 0 false]

theorem call_returns_iff_connected : ∃ net, Reach (Net.init none id) net ∧ net.fds.length = 3 ∧
    (net.call (.sendto 2 nameMem 3 none none ⟨false, 0, false, false, .failed⟩)).isSome := by
  have hexec : (Run.exec step connected (Net.init none id)).map (·.fds.length) = some 3 := by
    decide
  obtain ⟨net, hrun, hlen⟩ := Option.map_eq_some_iff.mp hexec
  have hr : Reach (Net.init none id) net := .of_exec_free _ hrun
  exact ⟨net, hr, hlen, (call_returns_iff hr _).mpr id⟩

/-- `socket(AF_UNIX, SOCK_DGRAM)`, then `connect` to a name. -/
theorem connect_name_panics : ∃ net, Reach (Net.init none id) net ∧
    net.call (.connect 0 nameMem 3 none .up .up) = none :=
  ⟨_, .of_exec_free [.socket 0 afUnix sockDgram 0 false false] rfl, rfl⟩

end Net

end NixVm.Sockets
