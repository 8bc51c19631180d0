/-
The namespaces of tasks, and joining others (`src/kernel/ns.rs`).

A task has one namespace of each kind; 0 is the initial one of every kind. New ones come from
`unshare`, and belong to the user namespace of the task that made them. `setns` joins those a
descriptor names, or those of the process a pidfd names.
-/
import NixVm.Kernel.UserNs
import NixVm.Lib.Run

namespace NixVm.Ns

inductive Kind
  | cgroup
  | ipc
  | mnt
  | net
  | pid
  | pidForChildren
  | time
  | timeForChildren
  | user
  | uts
  deriving DecidableEq

def Kind.flag : Kind → Nat
  | .time | .timeForChildren => 0x80
  | .mnt => 0x20000
  | .cgroup => 0x2000000
  | .uts => 0x4000000
  | .ipc => 0x8000000
  | .user => 0x10000000
  | .pid | .pidForChildren => 0x20000000
  | .net => 0x40000000

def asks (flags : Nat) (kind : Kind) : Bool := flags &&& kind.flag != 0

structure Proxy where
  cgroup : Nat
  ipc : Nat
  mnt : Nat
  net : Nat
  pid : Nat
  /-- What the task's children will join. -/
  pidForChildren : Nat
  time : Nat
  timeForChildren : Nat
  user : Nat
  uts : Nat
  deriving DecidableEq

def Proxy.init : Proxy := ⟨0, 0, 0, 0, 0, 0, 0, 0, 0, 0⟩

def Proxy.get (ns : Proxy) : Kind → Nat
  | .cgroup => ns.cgroup
  | .ipc => ns.ipc
  | .mnt => ns.mnt
  | .net => ns.net
  | .pid => ns.pid
  | .pidForChildren => ns.pidForChildren
  | .time => ns.time
  | .timeForChildren => ns.timeForChildren
  | .user => ns.user
  | .uts => ns.uts

/-- Join one namespace; a PID or time namespace for the children only. -/
def joinNamespace (ns : Proxy) (kind : Kind) (id : Nat) : Proxy :=
  match kind with
  | .cgroup => { ns with cgroup := id }
  | .ipc => { ns with ipc := id }
  | .mnt => { ns with mnt := id }
  | .net => { ns with net := id }
  | .pid | .pidForChildren => { ns with pidForChildren := id }
  | .time | .timeForChildren => { ns with timeForChildren := id }
  | .user => { ns with user := id }
  | .uts => { ns with uts := id }

/-- The descriptors `setns` tells apart. -/
inductive Fd
  | namespaceFd (kind : Kind) (id : Nat)
  | pidfd (target : Nat)
  | other

structure Creds where
  ruid : Nat
  euid : Nat
  suid : Nat
  fsuid : Nat
  rgid : Nat
  egid : Nat
  sgid : Nat
  fsgid : Nat

/-- `nsCaps`: every capability in its user namespace. `chrooted`: its root is not `/`. -/
structure Task where
  pid : Nat
  tgid : Nat
  zombie : Bool
  ns : Proxy
  creds : Creds
  nsCaps : Bool
  chrooted : Bool
  fds : List Fd

def Task.privileged (t : Task) : Bool := t.creds.euid = 0 || t.nsCaps

structure State where
  tasks : List Task
  users : UserNs.Table
  pidParent : Nat → Option Nat
  nextNs : Nat
  nextPid : Nat

def State.init : State where
  tasks := [⟨1, 1, false, .init, ⟨0, 0, 0, 0, 0, 0, 0, 0⟩, false, false, []⟩]
  users := .init
  pidParent := fun _ => none
  nextNs := 0
  nextPid := 2

def State.setTask (s : State) (i : Nat) (t : Task) : State := { s with tasks := s.tasks.set i t }

/-! ### Nesting -/

def State.pidChainFrom (s : State) : Nat → Nat → List Nat
  | 0, _ => []
  | fuel + 1, ns =>
    match s.pidParent ns with
    | none => []
    | some parent => ns :: s.pidChainFrom fuel parent

def State.pidChain (s : State) (ns : Nat) : List Nat := s.pidChainFrom UserNs.maxDepth ns

def State.pidIsWithin (s : State) (inner outer : Nat) : Bool :=
  outer = 0 || (s.pidChain inner).contains outer

def State.mayJoinPidNamespace (s : State) (t : Task) (target : Nat) : Bool :=
  s.pidIsWithin target t.ns.pid

def State.mayAdminister (s : State) (t : Task) (ns : Nat) : Bool :=
  t.privileged && (t.ns.user = 0 || s.users.isWithin (s.users.owner ns) t.ns.user)

def createdBy (users : UserNs.Table) (ns parent uid : Nat) : Bool :=
  match users.entry ns with
  | none => false
  | some e => e.parent = parent && e.creatorUid = uid

/-! ### New namespaces -/

def newNamespace (flags : Nat) (kind : Kind) (r : Proxy × Nat) : Proxy × Nat :=
  if asks flags kind then (joinNamespace r.1 kind (r.2 + 1), r.2 + 1) else r

/-- The namespaces `enter_new_namespaces` makes of kinds other than user. -/
def otherKinds : List Kind := [.uts, .ipc, .net, .mnt, .cgroup, .pidForChildren, .timeForChildren]

def recordOwners (users : UserNs.Table) (old ns' : Proxy) : UserNs.Table :=
  { users with owners := fun ns =>
      if otherKinds.any (fun k => ns'.get k ≠ old.get k && ns'.get k = ns) then some ns'.user
      else users.owners ns }

/-- `enter_user_namespace`: the ids are unmapped until a map is written. -/
def Task.unmapped (t : Task) : Task :=
  let o := UserNs.overflowId
  { t with creds := ⟨o, o, o, o, o, o, o, o⟩, nsCaps := true }

def State.threaded (s : State) (t : Task) : Bool :=
  s.tasks.any fun p => p.tgid = t.tgid && p.pid ≠ t.pid && !p.zombie

/-- `unshare` of namespaces. What has been made when it fails stays. -/
def State.unshare (s : State) (i flags : Nat) : Option State :=
  match s.tasks[i]? with
  | none => none
  | some t =>
    if !t.privileged && !asks flags .user && otherKinds.any (asks flags) then none
    else if asks flags .user && t.chrooted then none
    else if (asks flags .user || asks flags .pid) && s.threaded t then none
    else
      let r := newNamespace flags .user (t.ns, s.nextNs)
      let r' := otherKinds.foldl (fun r kind => newNamespace flags kind r) r
      let users := recordOwners s.users r.1 r'.1
      let s := { s with users, nextNs := r'.2 }
      let t' := { t with ns := r'.1 }
      let moved : Except Unit (State × Task) :=
        if asks flags .user then
          match s.users.create r'.1.user t.ns.user t.creds.euid t.creds.egid with
          | .error _ => .error ()
          | .ok users => .ok ({ s with users }, t'.unmapped)
        else .ok (s, t')
      match moved with
      | .error _ => some (s.setTask i { t' with ns := { t'.ns with user := t.ns.user } })
      | .ok (s, t') =>
        if asks flags .pid then
          if UserNs.maxDepth ≤ (s.pidChain t.ns.pidForChildren).length + 1 then
            some (s.setTask i { t' with ns :=
              { t'.ns with pidForChildren := t.ns.pidForChildren } })
          else
            some ({ s with pidParent := fun ns =>
              if ns = t'.ns.pidForChildren then some t.ns.pidForChildren
              else s.pidParent ns }.setTask i t')
        else some (s.setTask i t')

/-- A new process: it is in what was set aside for children. -/
def State.fork (s : State) (i : Nat) : Option State :=
  match s.tasks[i]? with
  | none => none
  | some t =>
    let child := { t with
      pid := s.nextPid
      tgid := s.nextPid
      ns := { t.ns with pid := t.ns.pidForChildren, time := t.ns.timeForChildren } }
    some { s with tasks := s.tasks ++ [child], nextPid := s.nextPid + 1 }

def State.exit (s : State) (i : Nat) : Option State :=
  s.tasks[i]?.map fun t => s.setTask i { t with zombie := true }

/-! ### Descriptors -/

def State.namespacesOf (s : State) (t : Task) (pid : Nat) : Option Proxy :=
  if pid = t.pid then some t.ns
  else
    match s.tasks.find? (·.pid = pid) with
    | none => none
    | some p => if p.zombie then none else some p.ns

/-- Open `/proc/<pid>/ns/<kind>`. -/
def State.openNamespace (s : State) (i pid : Nat) (kind : Kind) : Option State :=
  s.tasks[i]?.bind fun t => (s.namespacesOf t pid).map fun ns =>
    s.setTask i { t with fds := t.fds ++ [.namespaceFd kind (ns.get kind)] }

def State.pidfdOpen (s : State) (i pid : Nat) : Option State :=
  s.tasks[i]?.bind fun t => if s.tasks.any (·.pid = pid) then
    some (s.setTask i { t with fds := t.fds ++ [.pidfd pid] }) else none

/-! ### `setns` -/

/-- The kinds `setns` looks for behind a pidfd, in its order. -/
def pidfdKinds : List Kind := [.cgroup, .ipc, .mnt, .net, .pid, .time, .user, .uts]

def knownFlags (flags : Nat) : Bool := flags ||| 0x7E020080 == 0x7E020080

/-- The ids of a task that joins the user namespace `id`: the same ids, as seen there. -/
def Creds.view (users : UserNs.Table) (current id : Nat) (c : Creds) : Creds :=
  let view := fun kind value =>
    users.seenFromGlobal id kind ((users.toGlobal current kind value).getD value)
  ⟨view .uid c.ruid, view .uid c.euid, view .uid c.suid, view .uid c.fsuid,
    view .gid c.rgid, view .gid c.egid, view .gid c.sgid, view .gid c.fsgid⟩

def State.joinUserNamespace (s : State) (t : Task) (id : Nat) : Except Errno Task :=
  let current := t.ns.user
  if id = current then .error .einval
  else if !(s.users.isWithin id current &&
      (t.privileged || createdBy s.users id current t.creds.euid)) then .error .eperm
  else .ok { t with
    creds := t.creds.view s.users current id
    ns := { t.ns with user := id }
    nsCaps := true }

def Task.joinsUser (t : Task) (fd : Nat) : Bool :=
  match t.fds[fd]? with
  | some (.namespaceFd .user _) => true
  | _ => false

def joinAll (nstype : Nat) (target ns : Proxy) : Proxy :=
  (pidfdKinds.filter (asks nstype)).foldl (fun ns kind => joinNamespace ns kind (target.get kind))
    ns

def State.sysSetns (s : State) (t : Task) (fd nstype : Nat) : Except Errno Task :=
  if !knownFlags nstype then .error .einval
  else if !t.privileged && !t.joinsUser fd then .error .eperm
  else
    let threadedRefused := fun flags => s.threaded t && (asks flags .mnt || asks flags .user)
    match t.fds[fd]? with
    | some (.namespaceFd kind id) =>
      if nstype ≠ 0 ∧ nstype ≠ kind.flag then .error .einval
      else if threadedRefused kind.flag then .error .einval
      else if kind = .user then s.joinUserNamespace t id
      else if !s.mayAdminister t id then .error .eperm
      else if (kind = .pid ∨ kind = .pidForChildren) ∧ !s.mayJoinPidNamespace t id then
        .error .einval
      else .ok { t with ns := joinNamespace t.ns kind id }
    | some (.pidfd pid) =>
      if nstype = 0 ∨ threadedRefused nstype then .error .einval
      else
        match s.namespacesOf t pid with
        | none => .error .esrch
        | some target =>
          if asks nstype .pid && !s.mayJoinPidNamespace t target.pid then .error .einval
          else .ok { t with ns := joinAll nstype target t.ns }
    | some .other => .error .einval
    | none => .error .ebadf

def State.setns (s : State) (i fd nstype : Nat) : Option State :=
  s.tasks[i]?.bind fun t => match s.sysSetns t fd nstype with
    | .error _ => none
    | .ok t => some (s.setTask i t)

inductive Op
  | fork (i : Nat)
  | exit (i : Nat)
  | unshare (i flags : Nat)
  | openNamespace (i pid : Nat) (kind : Kind)
  | pidfdOpen (i pid : Nat)
  | setns (i fd nstype : Nat)

def State.step (s : State) : Op → Option State
  | .fork i => s.fork i
  | .exit i => s.exit i
  | .unshare i flags => s.unshare i flags
  | .openNamespace i pid kind => s.openNamespace i pid kind
  | .pidfdOpen i pid => s.pidfdOpen i pid
  | .setns i fd nstype => s.setns i fd nstype

abbrev State.Reach (can : State → Op → Prop) : State → State → Prop := Run.Reach State.step can

end NixVm.Ns
