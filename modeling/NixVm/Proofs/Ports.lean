/-
What holds over all runs of socket calls: the tables by which sockets are found name the sockets
that are bound there, and connections can be told apart by their addresses.

The first fails for a socket that is bound again: the tables keep it where it was.
-/
import NixVm.Proofs.Sockets

namespace NixVm.Sockets

open Option

namespace Net

variable {net net' : Net} {sock e fd : Nat} {s : Sock} {k : Kind}

lemma mem_withdraw {table : Key → Option (List Nat)} {key : Key} {g : List Nat}
    (h : withdraw table sock key = some g) : g ≠ [] ∧ ∃ l, table key = some l ∧ ∀ i ∈ g, i ∈ l := by
  unfold withdraw at h
  split at h
  · cases h
  rename_i l hl
  have ⟨hne, h⟩ := ite_none_left_eq_some.mp h
  cases h
  exact ⟨hne, l, hl, fun i hi => (List.mem_filter.mp hi).1⟩

lemma hangUp_keeps (h : net.Good) (i : Nat) : net.Keeps (net.hangUp i) := by
  unfold hangUp
  split
  next p hp =>
    have ⟨s, hs, hk⟩ := map_eq_some_iff.mp hp
    exact h.setPair hs hk rfl fun h0 => by rw [h0]
  · exact h.keeps

lemma hangUps_sound (l : List Nat) :
    ∀ {net : Net}, net.Good → (l.foldl hangUp net).Good ∧ net.Tame (l.foldl hangUp net) := by
  induction l with
  | nil => exact fun h => ⟨h, .refl _⟩
  | cons i l ih =>
    intro net h
    obtain ⟨hg, -, ht⟩ := hangUp_keeps h i
    exact ⟨(ih hg).1, ht.trans (ih hg).2⟩

lemma release_sound (h : net.Good) (hs : net.socks[sock]? = some s) (hk : s.kind = k)
    (hp : k.isPair = false) : (net.release sock k).Good ∧ net.Tame (net.release sock k) := by
  have hg : (net.setKind sock (.idle none)).Good := h.modify sock fun _ _ => trivial
  have hq : net.Quiet (net.setKind sock (.idle none)) := quiet_setKind sock rfl
  have hlen : (net.setKind sock (.idle none)).socks.length = net.socks.length :=
    List.length_modify ..
  cases k with
  | pair p => cases hp
  | listener addr backlog =>
    have hgood : Good { net.setKind sock (.idle none) with
        listeners := withdraw net.listeners sock } := by
      refine ⟨hg.kinds, fun key g hw => ?_, hg.ports, hg.paths, hg.fds⟩
      have ⟨hne, l, hl, hsub⟩ := mem_withdraw hw
      exact ⟨hne, fun i hi => (hg.listeners key l hl).2 i (hsub i hi)⟩
    have ⟨hup, ht⟩ := hangUps_sound backlog hgood
    have hout : net.Tame { net.setKind sock (.idle none) with
        listeners := withdraw net.listeners sock } := by
      refine ⟨fun ha => ha.listens hs (fun s => { s with kind := .idle none }) ?_ rfl
        (ha.listeners.withdraw sock), hq⟩
      simp [Sock.receivesAt, Kind.badge, hk]
    exact ⟨hup, hout.trans ht⟩
  | dgram d =>
    refine ⟨⟨hg.kinds, hg.listeners, fun key g hw i hi => ?_, hg.paths, hg.fds⟩, fun ha => ?_, hq⟩
    · obtain ⟨-, l, hl, hsub⟩ := mem_withdraw hw
      exact hg.ports key l hl i (hsub i hi)
    · refine ha.receives hs (fun s => { s with kind := .idle none }) ?_ rfl (ha.ports.withdraw sock)
      simp [Sock.listensAt, Kind.badge, hk]
  | _ => exact ⟨hg, tame_setKind hs hk rfl rfl⟩

lemma drop_sound (h : net.Good) (hd : net.drop sock e = some net') : net'.Good ∧ net.Tame net' := by
  unfold drop at hd
  split at hd
  · cases hd
    exact ⟨h, .refl _⟩
  rename_i s hs
  split at hd
  next p hp =>
    have ⟨n, hn, hd⟩ := bind_eq_some_iff.mp hd
    cases hd
    obtain ⟨hg, -, ht⟩ := h.setPair (q := { p with refs := set2 p.refs e (n - 1) }) hs hp rfl (by
      intro h0
      unfold at2 at hn
      split at hn
      · cases hn
        simp [set2, *]
      · split at hn <;> cases hn
        simp [set2, *])
    exact ⟨hg, ht⟩
  rename_i kind hk
  have hg := h.modify sock (f := fun s => { s with refs := s.refs - 1 }) h.kinds
  have ht : net.Tame { net with
      socks := net.socks.modify sock fun s => { s with refs := s.refs - 1 } } :=
    tame_modify hs rfl rfl rfl fun _ hc => hc
  have hnew : (net.socks.modify sock fun s => { s with refs := s.refs - 1 })[sock]?
      = some { s with refs := s.refs - 1 } := by
    simp [hs]
  have hpair : s.kind.isPair = false := by
    cases hkind : s.kind with
    | pair p => exact absurd hkind (hk p)
    | _ => rfl
  split at hd <;> cases hd
  · have ⟨hg', ht'⟩ := release_sound hg hnew rfl hpair
    exact ⟨hg', ht.trans ht'⟩
  · exact ⟨hg, ht⟩

lemma close_sound (h : net.Good) (hc : net.close fd = some net') : net'.Good ∧ net.Tame net' := by
  unfold close at hc
  split at hc
  · cases hc
    exact ⟨h, .refl _⟩
  have hg : Good { net with fds := net.fds.eraseIdx fd } :=
    ⟨h.kinds, h.listeners, h.ports, h.paths, fun p hp => h.fds p (List.mem_of_mem_eraseIdx hp)⟩
  have ⟨hg', ht⟩ := drop_sound hg hc
  have hout : net.Tame { net with fds := net.fds.eraseIdx fd } := tame_same rfl rfl rfl rfl
  exact ⟨hg', hout.trans ht⟩

lemma setsockopt_sound (h : net.Good) (opts : Opts) (groups : List InetAddr) :
    (net.setsockopt fd opts groups).Good ∧ net.Tame (net.setsockopt fd opts groups) := by
  unfold setsockopt
  split
  · exact ⟨h, .refl _⟩
  rename_i sock e hp
  obtain ⟨s, hs, -⟩ := Returns.getElem (h.sockOf hp).1
  refine ⟨h.modify sock fun t ht => ?_, tame_modify hs ?_ rfl rfl ?_⟩
  · have hw := h.kinds t ht
    split <;> simp_all [Kind.Within]
  · cases s.kind <;> rfl
  · cases hk : s.kind <;> simp [Sock.conn, hk]

/-- A `bind` is of an unbound socket, and to a name that no socket has had. -/
def freshAct (net : Net) : Act → Bool
  | .call op => net.fresh op
  | _ => true

def clientAct (net : Net) : Act → Option Sock
  | .call op => net.client op
  | _ => none

/-- The search for a port goes past `port` or stops before it: a socket that listens or is bound
has it, or a lower one is free. -/
def passesOver (net : Net) (ns : Nat) (v6 : Bool) (port : Nat) : Bool :=
  (port ≠ 0 && net.addrInUse ns "tcp" ⟨v6, port, anyIp⟩ none) ||
    (List.range' 32768 28232).any fun p =>
      !net.addrInUse ns "tcp" ⟨v6, p, anyIp⟩ none && (port = 0 || p < port)

/-- The client port of an open connection of the namespace and family may be found again. -/
def exposed (net : Net) (s : Sock) : Bool :=
  net.socks.any fun t => t.conn.any fun c => c.1 = s.netns && c.2.1.any fun a =>
    a.v6 = decide (s.domain = afInet6) && !net.passesOver s.netns a.v6 a.port

/-- A `connect` is made only while no open connection's port may be found again. -/
def spares (net : Net) (a : Act) : Bool := !(net.clientAct a).any net.exposed

/-- Slot `i` holds a connection of a namespace, with an open end. -/
def Open (net : Net) (ns i : Nat) : Bool := (net.conn i).any fun c => c.1 = ns

lemma Good.act (h : net.Good) {a : Act} (hact : net.act a = some net') :
    net'.Good ∧ (net.freshAct a = true → net.Agree → net'.Agree) ∧
      (net.Quiet net' ∨ ∃ s, net.clientAct a = some s ∧ net.Opens s net') := by
  cases a with
  | call op =>
    obtain ⟨⟨r, n⟩, hr, rfl⟩ := Option.map_eq_some_iff.mp hact
    exact h.call hr
  | close fd =>
    obtain ⟨hg, ht⟩ := close_sound h hact
    exact ⟨hg, fun _ => ht.1, .inl ht.2⟩
  | setsockopt fd opts groups =>
    cases hact
    obtain ⟨hg, ht⟩ := setsockopt_sound h opts groups
    exact ⟨hg, fun _ => ht.1, .inl ht.2⟩

lemma Agree.init (egress : Option (Option (Bool × Bool))) (lossy : List UInt8 → List UInt8) :
    (Net.init egress lossy).Agree :=
  ⟨fun _ _ => ⟨nofun, nofun⟩, fun _ _ => ⟨nofun, nofun⟩, nofun, nofun⟩

/-- **The tables agree with the sockets.** After any run in which only unbound sockets are bound,
and to new names, the groups of the tables are the sockets that listen or receive at the key, a
name has one socket, and what comes for a key goes to a socket bound to it. -/
theorem tables_agree {egress : Option (Option (Bool × Bool))} {lossy : List UInt8 → List UInt8}
    (h : Run.Reach act (fun net a => net.freshAct a = true) (Net.init egress lossy) net) :
    net.Agree ∧
      (∀ key l n, net.pickListener key = some (some l, n) → net.keyOf Sock.listensAt l = some key) ∧
      ∀ key port i, net.pickDgramTarget key port = some (some i) →
        net.keyOf Sock.receivesAt i = some key := by
  obtain ⟨hg, ha⟩ : net.Good ∧ net.Agree := h.invariant (P := fun n => n.Good ∧ n.Agree)
    ⟨.init egress lossy, .init egress lossy⟩
    fun _ _ _ hn hcan hact => ⟨(hn.1.act hact).1, (hn.1.act hact).2.1 hcan hn.2⟩
  refine ⟨ha, fun key l n hp => ?_, fun key port i hp => ?_⟩
  · obtain ⟨r, hr, -, -, hmem⟩ := pickListener_returns hg key
    cases hp.symm.trans hr
    exact (ha.listeners key l).mp (hmem l rfl)
  obtain ⟨r, hr, hmem⟩ := pickDgramTarget_returns hg key port
  cases hp.symm.trans hr
  exact (ha.ports key i).mp (hmem i rfl)

/-- The bytes of the address `127.0.0.1` with a port below 256. -/
def portMem (port : UInt8) : Mem := fun i => [2, 0, 0, port, 127, 0, 0, 1][i]?

def served : List Act :=
  [.call (.socket 0 afInet sockStream 0 false false), .call (.bind 0 (portMem 80) 8 none),
    .call (.listen 0), .call (.socket 0 afInet sockStream 0 false false),
    .call (.connect 1 (portMem 80) 8 none .up .up)]

def rebound : List Act :=
  [.call (.socket 0 afInet sockDgram 0 false false), .call (.bind 0 (portMem 80) 8 none),
    .call (.bind 0 (portMem 81) 8 none)]

def secondClient : List Act :=
  served ++ [.call (.socket 0 afInet sockStream 0 false false),
    .call (.connect 2 (portMem 80) 8 none .up .up)]

def boundClient : List Act :=
  served ++ [.call (.socket 0 afInet sockStream 0 false false), .call (.bind 2 (portMem 0) 8 none),
    .call (.socket 0 afInet sockStream 0 false false),
    .call (.connect 3 (portMem 80) 8 none .up .up)]

lemma runs_evaluated : ((Run.exec (fun net a => if net.freshAct a then net.act a else none) served
      (Net.init none id)).any fun net => (net.keyOf Sock.listensAt 0).isSome) = true ∧
    ((Run.exec act rebound (Net.init none id)).any fun net =>
      net.pickDgramTarget (routeKey 0 "udp" ⟨false, 80, anyIp⟩) 0 = some (some 0) &&
        net.keyOf Sock.receivesAt 0 ≠ some (routeKey 0 "udp" ⟨false, 80, anyIp⟩)) = true ∧
    ((Run.exec (fun net a => if net.spares a then net.act a else none) boundClient
      (Net.init none id)).any fun net => net.Open 0 1 && net.Open 0 3) = true ∧
    ((Run.exec act secondClient (Net.init none id)).any fun net => net.Open 0 1 && net.Open 0 2 &&
        (net.sockname 1 0, net.peername 1 0) = (net.sockname 2 0, net.peername 2 0)) = true := by
  decide +kernel

theorem tables_agree_served : ∃ net key,
    Run.Reach act (fun net a => net.freshAct a = true) (Net.init none id) net ∧
      net.keyOf Sock.listensAt 0 = some key ∧ 0 ∈ (net.listeners key).getD [] := by
  obtain ⟨net, hrun, hkey⟩ := (Option.any_eq_true _ _).mp runs_evaluated.1
  obtain ⟨key, hkey⟩ := Option.isSome_iff_exists.mp hkey
  have hr : Run.Reach act (fun net a => net.freshAct a = true) (Net.init none id) net :=
    .of_exec_guarded (fun _ _ h => h) _ hrun
  exact ⟨net, key, hr, hkey, ((tables_agree hr).1.listeners key 0).mpr hkey⟩

/-- A datagram socket that is bound to a second port still gets what is sent to the first. -/
theorem bound_twice : ∃ net key, Run.Reach act (fun _ _ => True) (Net.init none id) net ∧
    net.pickDgramTarget key 0 = some (some 0) ∧ net.keyOf Sock.receivesAt 0 ≠ some key := by
  obtain ⟨net, hrun, h⟩ := (Option.any_eq_true _ _).mp runs_evaluated.2.1
  rw [Bool.and_eq_true, decide_eq_true_eq, decide_eq_true_eq] at h
  exact ⟨net, _, .of_exec_free _ hrun, h.1, h.2⟩

/-- The port found is the lowest that is free, or 0 when none is. -/
lemma ephemeralPort_spec (net : Net) (ns : Nat) (v6 : Bool) :
    (net.ephemeralPort ns "tcp" v6 = 0 ∧ ∀ p ∈ List.range' 32768 28232,
      net.addrInUse ns "tcp" ⟨v6, p, anyIp⟩ none = true) ∨
    (net.addrInUse ns "tcp" ⟨v6, net.ephemeralPort ns "tcp" v6, anyIp⟩ none = false ∧
      32768 ≤ net.ephemeralPort ns "tcp" v6 ∧ ∀ p ∈ List.range' 32768 28232,
        p < net.ephemeralPort ns "tcp" v6 →
          net.addrInUse ns "tcp" ⟨v6, p, anyIp⟩ none = true) := by
  unfold ephemeralPort
  cases hf : (List.range' 32768 28232).find? fun port =>
      !net.addrInUse ns "tcp" ⟨v6, port, anyIp⟩ none with
  | none =>
    rw [List.find?_eq_none] at hf
    exact .inl ⟨rfl, fun p hp => by simpa using hf p hp⟩
  | some port =>
    obtain ⟨hfree, hmem, hbefore⟩ := List.find?_range'_eq_some.mp hf
    refine .inr ⟨by simpa using hfree, (List.mem_range'_1.mp hmem).1, fun p hp hlt => ?_⟩
    simpa using hbefore p (List.mem_range'_1.mp hp).1 hlt

lemma passesOver_ephemeral (ns : Nat) (v6 : Bool) :
    net.passesOver ns v6 (net.ephemeralPort ns "tcp" v6) = false := by
  rw [Bool.eq_false_iff]
  intro hpass
  rcases (Bool.or_eq_true _ _).mp hpass with hused | hlower
  · obtain ⟨hne, hused⟩ := Bool.and_eq_true_iff.mp hused
    rcases ephemeralPort_spec net ns v6 with ⟨hzero, -⟩ | ⟨hfree, -⟩
    · exact of_decide_eq_true hne hzero
    · rw [hfree] at hused
      cases hused
  · obtain ⟨p, hp, hlower⟩ := List.any_eq_true.mp hlower
    obtain ⟨hfree, hlt⟩ := Bool.and_eq_true_iff.mp hlower
    have hused : net.addrInUse ns "tcp" ⟨v6, p, anyIp⟩ none = true := by
      rcases ephemeralPort_spec net ns v6 with ⟨-, hall⟩ | ⟨-, hlo, hbefore⟩
      · exact hall p hp
      · refine hbefore p hp ?_
        rcases (Bool.or_eq_true _ _).mp hlt with hzero | hlt
        · have := of_decide_eq_true hzero
          omega
        · exact of_decide_eq_true hlt
    rw [hused] at hfree
    cases hfree

lemma not_exposed (h : net.exposed s = false) {i : Nat}
    {c : Nat × (Option InetAddr × Option InetAddr)} (hc : net.conn i = some c)
    (hns : c.1 = s.netns) : c.2.1 ≠ some (net.freshLocal s.netns (s.domain = afInet6)) := by
  intro hlocal
  have ⟨t, ht, hc⟩ := bind_eq_some_iff.mp hc
  have hno := List.any_eq_false.mp h t (List.mem_of_getElem? ht)
  simp [hc, hns, hlocal, freshLocal, passesOver_ephemeral] at hno

def Distinct (net : Net) : Prop := ∀ i j c, net.conn i = some c → net.conn j = some c → i = j

lemma Distinct.quiet (h : net.Distinct) (hq : net.Quiet net') : net'.Distinct :=
  fun i j c hi hj => h i j c (hq i c hi) (hq j c hj)

lemma Distinct.opens (h : net.Distinct) (ho : net.Opens s net') (hs : net.exposed s = false) :
    net'.Distinct := by
  obtain ⟨sock, hc⟩ := ho
  intro i j c hi hj
  rcases hc i c hi with hi | ⟨rfl, hns, hlocal⟩
  · rcases hc j c hj with hj | ⟨rfl, hns, hlocal⟩
    · exact h i j c hi hj
    · exact absurd hlocal (not_exposed hs hi hns)
  rcases hc j c hj with hj | ⟨rfl, -, -⟩
  · exact absurd hlocal (not_exposed hs hj hns)
  · rfl

lemma Distinct.act (h : net.Distinct) (hg : net.Good) {a : Act} (hs : net.spares a = true)
    (hact : net.act a = some net') : net'.Distinct := by
  rcases (hg.act hact).2.2 with hq | ⟨s, hwho, ho⟩
  · exact h.quiet hq
  · exact h.opens ho (by simpa [spares, hwho] using hs)

lemma conn_of_open {ns i : Nat} (h : net.Open ns i) :
    net.conn i = some (ns, net.sockname i 0, net.peername i 0) := by
  have ⟨c, hc, hns⟩ := (any_eq_true _ _).mp h
  have hc' := hc
  have ⟨s, hs, hc'⟩ := bind_eq_some_iff.mp hc'
  unfold Sock.conn at hc'
  split at hc'
  next p hk =>
    obtain ⟨-, hc'⟩ := ite_none_right_eq_some.mp hc'
    cases hc'
    have hname : ∀ e, net.sockname i e = (at2 p.addrs e).join := by
      intro e
      simp only [sockname, hs, bind_eq_bind, bind_some, hk]
      cases at2 p.addrs e <;> rfl
    rw [hc, peername, hname]
    simpa [other, hname, at2] using hns
  · cases hc'

/-- **Connections can be told apart.** After any run in which the ports of open connections are kept
from `connect` by sockets that it sees or by free ports below, two open connections of a namespace
differ in their addresses. -/
theorem connections_distinct {egress : Option (Option (Bool × Bool))}
    {lossy : List UInt8 → List UInt8}
    (h : Run.Reach act (fun net a => net.spares a = true) (Net.init egress lossy) net)
    {ns i j : Nat} (hi : net.Open ns i) (hj : net.Open ns j) (hij : i ≠ j) :
    (net.sockname i 0, net.peername i 0) ≠ (net.sockname j 0, net.peername j 0) := by
  obtain ⟨-, hd⟩ : net.Good ∧ net.Distinct := h.invariant (P := fun n => n.Good ∧ n.Distinct)
    ⟨.init egress lossy, fun _ _ _ hc => by cases hc⟩
    fun _ _ _ hn hcan hact => ⟨(hn.1.act hact).1, hn.2.act hn.1 hcan hact⟩
  intro heq
  have hc := conn_of_open hi
  rw [heq] at hc
  exact hij (hd i j _ hc (conn_of_open hj))

theorem connections_distinct_bound : ∃ net,
    Run.Reach act (fun net a => net.spares a = true) (Net.init none id) net ∧
      net.Open 0 1 ∧ net.Open 0 3 ∧
      (net.sockname 1 0, net.peername 1 0) ≠ (net.sockname 3 0, net.peername 3 0) := by
  obtain ⟨net, hrun, hopen⟩ := (Option.any_eq_true _ _).mp runs_evaluated.2.2.1
  have hr : Run.Reach act (fun net a => net.spares a = true) (Net.init none id) net :=
    .of_exec_guarded (fun _ _ h => h) _ hrun
  obtain ⟨h1, h3⟩ := Bool.and_eq_true_iff.mp hopen
  exact ⟨net, hr, h1, h3, connections_distinct hr h1 h3 (by decide)⟩

/-- Two clients of one server, both from the first ephemeral port. -/
theorem connections_alike : ∃ net, Run.Reach act (fun _ _ => True) (Net.init none id) net ∧
    net.Open 0 1 ∧ net.Open 0 2 ∧
    (net.sockname 1 0, net.peername 1 0) = (net.sockname 2 0, net.peername 2 0) := by
  obtain ⟨net, hrun, hopen⟩ := (Option.any_eq_true _ _).mp runs_evaluated.2.2.2
  rw [Bool.and_eq_true, Bool.and_eq_true, decide_eq_true_eq] at hopen
  exact ⟨net, .of_exec_free _ hrun, hopen.1.1, hopen.1.2, hopen.2⟩

end Net

end NixVm.Sockets
