/-
The tables by which sockets are found, and the sockets.

`Agree` says that a socket is in the group of listeners of the key it listens at and in no other,
that the same holds of the ports of datagram sockets, and that a name has one socket.
-/
import NixVm.Kernel.Ports

namespace NixVm.Sockets

open Sock Option

/-- The address a listener listens on, and the local address of a datagram socket. -/
def Kind.badge : Kind → Option Addr × Option InetAddr
  | .listener addr _ => (addr, none)
  | .dgram d => (none, d.localAddr)
  | _ => (none, none)

def Sock.listensAt (s : Sock) : Option Key := s.kind.badge.1.map (Net.listenKey s)

/-- The key of the local address of a datagram socket. -/
def Sock.receivesAt (s : Sock) : Option Key := s.kind.badge.2.map (routeKey s.netns "udp")

namespace Net

def keyOf (net : Net) (f : Sock → Option Key) (i : Nat) : Option Key := (net.socks[i]?).bind f

def Lists (table : Key → Option (List Nat)) (keyOf : Nat → Option Key) : Prop :=
  ∀ k i, i ∈ (table k).getD [] ↔ keyOf i = some k

structure Agree (net : Net) : Prop where
  listeners : Lists net.listeners (net.keyOf Sock.listensAt)
  ports : Lists net.dgramPorts (net.keyOf Sock.receivesAt)
  names : ∀ i j k, net.keyOf Sock.unixBoundKey i = some k →
    net.keyOf Sock.unixBoundKey j = some k → i = j
  paths : ∀ k i, net.dgramPaths k = some i → net.keyOf Sock.unixBoundKey i = some k

variable {net : Net} {i : Nat} {s : Sock} {k₀ k : Kind} {f : Sock → Option Key}
  {table : Key → Option (List Nat)} {keyOf : Nat → Option Key} {key : Key}

lemma keyOf_eq (hs : net.socks[i]? = some s) (f : Sock → Option Key) : net.keyOf f i = f s := by
  rw [Net.keyOf, hs]
  rfl

lemma keyOf_modify (hs : net.socks[i]? = some s) (g : Sock → Sock) :
    Net.keyOf { net with socks := net.socks.modify i g } f
      = Function.update (net.keyOf f) i (f (g s)) := by
  funext j
  by_cases hj : j = i
  · subst hj
    simp [Net.keyOf, hs]
  · simp [Net.keyOf, Function.update_of_ne hj, Ne.symm hj]

lemma keyOf_keep (hs : net.socks[i]? = some s) {g : Sock → Sock} (hg : f (g s) = f s) :
    Net.keyOf { net with socks := net.socks.modify i g } f = net.keyOf f := by
  rw [keyOf_modify hs, hg, ← keyOf_eq hs f, Function.update_eq_self]

lemma keyOf_append {new : List Sock} (hnew : ∀ s ∈ new, f s = none) :
    Net.keyOf { net with socks := net.socks ++ new } f = net.keyOf f := by
  funext j
  simp only [Net.keyOf, List.getElem?_append]
  split
  · rfl
  rename_i hj
  rw [List.getElem?_eq_none (Nat.le_of_not_lt hj)]
  exact bind_eq_none_iff.mpr fun s hs => hnew s (List.mem_of_getElem? hs)

lemma badge_keeps {t : Sock} (hb : t.kind.badge = s.kind.badge) (hns : t.netns = s.netns)
    (hn : t.unixBoundKey = s.unixBoundKey) :
    t.listensAt = s.listensAt ∧ t.receivesAt = s.receivesAt := by
  have hkey : listenKey t = listenKey s := by
    funext a
    cases a <;> simp only [listenKey, hns, hn]
  rw [listensAt, receivesAt, listensAt, receivesAt, hb, hkey, hns]
  exact ⟨rfl, rfl⟩

lemma Lists.add (h : Lists table keyOf) (key : Key) (hi : keyOf i = none)
    {g : List Nat → List Nat} (hg : ∀ l j, j ∈ g l ↔ j ∈ l ∨ j = i) :
    Lists (fun k => if k = key then some (g ((table k).getD [])) else table k)
      (Function.update keyOf i (some key)) := by
  intro k j
  have hj := h k j
  by_cases hji : j = i
  · subst hji
    rw [hi] at hj
    by_cases hk : k = key
    · simp [hk, hg]
    · simpa [hk, Ne.symm hk] using hj
  by_cases hk : k = key
  · subst hk
    simpa [hg, hji] using hj
  · simpa [hk, hji] using hj

lemma Lists.withdraw (h : Lists table keyOf) (i : Nat) :
    Lists (withdraw table i) (Function.update keyOf i none) := by
  intro k j
  have hmem : j ∈ (Net.withdraw table i k).getD [] ↔ j ∈ (table k).getD [] ∧ j ≠ i := by
    unfold Net.withdraw
    cases table k with
    | none => simp
    | some group =>
      dsimp only
      split
      next hnil =>
        have hall := List.filter_eq_nil_iff.mp hnil
        simpa using hall j
      · simp
  rw [hmem, h k j]
  by_cases hji : j = i <;> simp [hji]

section

variable (h : net.Agree)
include h

lemma Agree.still {net' : Net} (hl : net'.listeners = net.listeners)
    (hp : net'.dgramPorts = net.dgramPorts) (hd : net'.dgramPaths = net.dgramPaths)
    (hla : net'.keyOf listensAt = net.keyOf listensAt)
    (hra : net'.keyOf receivesAt = net.keyOf receivesAt)
    (hn : net'.keyOf unixBoundKey = net.keyOf unixBoundKey) : net'.Agree := by
  refine ⟨?_, ?_, ?_, ?_⟩
  · rw [hl, hla]
    exact h.listeners
  · rw [hp, hra]
    exact h.ports
  · rw [hn]
    exact h.names
  · rw [hd, hn]
    exact h.paths

lemma Agree.setKind (hs : net.socks[i]? = some s) (hk : s.kind = k0)
    (hb : k.badge = k0.badge) : (net.setKind i k).Agree := by
  have ⟨hl, hr⟩ := badge_keeps (s := s) (t := { s with kind := k }) (hk ▸ hb) rfl rfl
  exact h.still rfl rfl rfl (keyOf_keep hs hl) (keyOf_keep hs hr) (keyOf_keep hs rfl)

lemma Agree.append {new : List Sock} {fds : List (Nat × Nat)}
    (hnew : ∀ s ∈ new, s.unixBoundKey = none ∧ s.kind.badge = (none, none)) :
    Agree { net with socks := net.socks ++ new, fds := fds } := by
  refine h.still rfl rfl rfl ?_ ?_ (keyOf_append fun s hs => (hnew s hs).1)
  · exact keyOf_append fun s hs => by rw [listensAt, (hnew s hs).2]; rfl
  · exact keyOf_append fun s hs => by rw [receivesAt, (hnew s hs).2]; rfl

end

section

variable (h : net.Agree) (hs : net.socks[i]? = some s)
include h hs

lemma Agree.listens (g : Sock → Sock)
    (hr : (g s).receivesAt = s.receivesAt) (hn : (g s).unixBoundKey = s.unixBoundKey)
    (ht : Lists table (Function.update (net.keyOf listensAt) i (g s).listensAt)) :
    Agree { net with socks := net.socks.modify i g, listeners := table } := by
  have hports := h.ports
  have hnames := h.names
  have hpaths := h.paths
  rw [← keyOf_modify hs] at ht
  rw [← keyOf_keep hs hr] at hports
  rw [← keyOf_keep hs hn] at hnames hpaths
  exact ⟨ht, hports, hnames, hpaths⟩

lemma Agree.receives (g : Sock → Sock)
    (hl : (g s).listensAt = s.listensAt) (hn : (g s).unixBoundKey = s.unixBoundKey)
    (ht : Lists table (Function.update (net.keyOf receivesAt) i (g s).receivesAt)) :
    Agree { net with socks := net.socks.modify i g, dgramPorts := table } := by
  have hlisteners := h.listeners
  have hnames := h.names
  have hpaths := h.paths
  rw [← keyOf_modify hs] at ht
  rw [← keyOf_keep hs hl] at hlisteners
  rw [← keyOf_keep hs hn] at hnames hpaths
  exact ⟨hlisteners, ht, hnames, hpaths⟩

lemma Agree.name (hl : s.kind.badge.1 = none)
    (hn : s.unixBoundKey = none) (hfree : ∀ t ∈ net.socks, t.unixBoundKey ≠ some key) :
    Agree { net with socks := net.socks.modify i fun s => { s with unixBoundKey := some key } } := by
  have hnone : ∀ j, net.keyOf unixBoundKey j ≠ some key := by
    intro j hj
    have ⟨t, ht, hk⟩ := bind_eq_some_iff.mp hj
    exact hfree t (List.mem_of_getElem? ht) hk
  have hi : net.keyOf unixBoundKey i = none := (keyOf_eq hs _).trans hn
  have hla : listensAt { s with unixBoundKey := some key } = s.listensAt := by
    rw [listensAt, listensAt, hl]
    rfl
  have hlisteners := h.listeners
  have hports := h.ports
  rw [← keyOf_keep hs (g := fun s => { s with unixBoundKey := some key }) hla] at hlisteners
  rw [← keyOf_keep hs (g := fun s => { s with unixBoundKey := some key }) rfl] at hports
  refine ⟨hlisteners, hports, ?_, ?_⟩
  · intro j l k hj hl
    rw [keyOf_modify hs] at hj hl
    have := h.names j l k
    grind [Function.update_apply]
  intro k j hj
  rw [keyOf_modify hs, Function.update_of_ne]
  · exact h.paths k j hj
  rintro rfl
  cases hi.symm.trans (h.paths k j hj)

end

end Net

def Kind.isPair : Kind → Bool
  | .pair _ => true
  | _ => false

/-- The namespace and the addresses of a connection with an open end. -/
def Sock.conn (s : Sock) : Option (Nat × (Option InetAddr × Option InetAddr)) :=
  match s.kind with
  | .pair p =>
    if (s.domain = afInet ∨ s.domain = afInet6) ∧ p.refs ≠ (0, 0) then some (s.netns, p.addrs)
    else none
  | _ => none

namespace Net

def conn (net : Net) (i : Nat) : Option (Nat × (Option InetAddr × Option InetAddr)) :=
  (net.socks[i]?).bind Sock.conn

/-- No connection is new, and none has changed its addresses. -/
def Quiet (net net' : Net) : Prop := ∀ i c, net'.conn i = some c → net.conn i = some c

variable {net net' net'' : Net} {i : Nat} {s : Sock} {k : Kind}

lemma Quiet.refl (net : Net) : net.Quiet net := fun _ _ hc => hc

lemma Quiet.trans (h : net.Quiet net') (h' : net'.Quiet net'') : net.Quiet net'' :=
  fun i c hc => h i c (h' i c hc)

lemma quiet_modify {f : Sock → Sock}
    (hf : ∀ s, net.socks[i]? = some s → ∀ c, (f s).conn = some c → s.conn = some c) :
    net.Quiet { net with socks := net.socks.modify i f } := by
  intro j c hc
  simp only [conn, List.getElem?_modify] at hc ⊢
  have ⟨t, ht, hc⟩ := bind_eq_some_iff.mp hc
  obtain ⟨s, hs, rfl⟩ := map_eq_some_iff.mp ht
  rw [hs]
  by_cases hij : i = j
  · subst hij
    exact hf s hs c (by simpa using hc)
  · simpa [hij] using hc

lemma quiet_setKind (i : Nat) (hk : k.isPair = false) : net.Quiet (net.setKind i k) := by
  refine quiet_modify fun s _ c hc => ?_
  cases k with
  | pair p => cases hk
  | _ => cases hc

lemma quiet_pair {p q : Pair} (hs : net.socks[i]? = some s) (hp : s.kind = .pair p)
    (ha : q.addrs = p.addrs) (hr : p.refs = (0, 0) → q.refs = (0, 0)) :
    net.Quiet (net.setKind i (.pair q)) := by
  refine quiet_modify fun t ht c hc => ?_
  cases hs.symm.trans ht
  simp only [Sock.conn, hp, ← ha] at hc ⊢
  split at hc
  next hcond =>
    rw [if_pos ⟨hcond.1, fun h0 => hcond.2 (hr h0)⟩]
    exact hc
  · cases hc

lemma quiet_append {new : List Sock} {fds : List (Nat × Nat)} (hnew : ∀ s ∈ new, s.conn = none) :
    net.Quiet { net with socks := net.socks ++ new, fds := fds } := by
  intro i c hc
  simp only [conn, List.getElem?_append] at hc ⊢
  split at hc
  · exact hc
  have ⟨t, ht, hc⟩ := bind_eq_some_iff.mp hc
  cases (hnew t (List.mem_of_getElem? ht)).symm.trans hc

/-- A step that keeps the tables in step with the sockets, and makes no connection. -/
def Tame (net net' : Net) : Prop := (net.Agree → net'.Agree) ∧ net.Quiet net'

lemma Tame.refl (net : Net) : net.Tame net := ⟨id, .refl net⟩

lemma Tame.trans (h : net.Tame net') (h' : net'.Tame net'') : net.Tame net'' :=
  ⟨fun ha => h'.1 (h.1 ha), h.2.trans h'.2⟩

lemma tame_same (hs : net'.socks = net.socks) (hl : net'.listeners = net.listeners)
    (hp : net'.dgramPorts = net.dgramPorts) (hd : net'.dgramPaths = net.dgramPaths) :
    net.Tame net' := by
  have hkey : net'.keyOf = net.keyOf := by
    funext f i
    rw [keyOf, keyOf, hs]
  refine ⟨fun h => h.still hl hp hd ?_ ?_ ?_, fun i c hc => by rwa [conn, hs] at hc⟩ <;> rw [hkey]

lemma tame_modify {g : Sock → Sock} (hs : net.socks[i]? = some s)
    (hb : (g s).kind.badge = s.kind.badge) (hns : (g s).netns = s.netns)
    (hn : (g s).unixBoundKey = s.unixBoundKey) (hc : ∀ c, (g s).conn = some c → s.conn = some c) :
    net.Tame { net with socks := net.socks.modify i g } := by
  have ⟨hl, hr⟩ := badge_keeps hb hns hn
  refine ⟨fun h => h.still rfl rfl rfl (keyOf_keep hs hl) (keyOf_keep hs hr) (keyOf_keep hs hn),
    quiet_modify fun t ht => ?_⟩
  cases hs.symm.trans ht
  exact hc

lemma tame_setKind {k0 : Kind} (hs : net.socks[i]? = some s) (hk : s.kind = k0)
    (hb : k.badge = k0.badge) (hp : k.isPair = false) : net.Tame (net.setKind i k) :=
  ⟨fun h => h.setKind hs hk hb, quiet_setKind i hp⟩

lemma tame_pair {p q : Pair} (hs : net.socks[i]? = some s) (hk : s.kind = .pair p)
    (ha : q.addrs = p.addrs) (hr : p.refs = (0, 0) → q.refs = (0, 0)) :
    net.Tame (net.setKind i (.pair q)) :=
  ⟨fun h => h.setKind hs hk rfl, quiet_pair hs hk ha hr⟩

lemma tame_append {new : List Sock} {fds : List (Nat × Nat)} (hnew : ∀ s ∈ new,
    s.unixBoundKey = none ∧ s.kind.badge = (none, none) ∧ s.conn = none) :
    net.Tame { net with socks := net.socks ++ new, fds := fds } :=
  ⟨fun h => h.append fun s hs => ⟨(hnew s hs).1, (hnew s hs).2.1⟩,
    quiet_append fun s hs => (hnew s hs).2.2⟩

end Net

end NixVm.Sockets
