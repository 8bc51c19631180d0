/-
`do_clone` (`src/kernel/mod.rs`), the common part of `clone`, `clone3`, `fork` and `vfork`: what it
takes and in which order, and where it returns an error.

The numbering is the table of `Kernel/PidNs.lean` and the cgroups are the tree of
`Kernel/Cgroup.lean`. What the rest of the kernel answers comes with the call (`Env`). The caller
is out of the table of tasks, as on the serial scheduler.
-/
import NixVm.Kernel.Cgroup
import NixVm.Kernel.Fds
import NixVm.Kernel.PidNs

namespace NixVm.Clone

abbrev Flags := BitVec 64

def cloneVm : Flags := 0x100
def cloneFs : Flags := 0x200
def cloneFiles : Flags := 0x400
def cloneSighand : Flags := 0x800
def cloneVfork : Flags := 0x4000
def cloneThread : Flags := 0x10000
def cloneNewns : Flags := 0x20000
def cloneNewcgroup : Flags := 0x2000000
def cloneNewuts : Flags := 0x4000000
def cloneNewipc : Flags := 0x8000000
def cloneNewuser : Flags := 0x10000000
def cloneNewpid : Flags := 0x20000000
def cloneNewnet : Flags := 0x40000000
def cloneClearSighand : Flags := 0x100000000
def cloneAllFlags : Flags := 0x3ffffff00

def has (flags mask : Flags) : Bool := flags &&& mask ≠ 0

structure Proc where
  pid : Nat
  tgid : Nat
  ruid : Nat
  zombie : Bool
  /-- Nobody will wait for it: a thread, or a child its parent discards. -/
  unwaited : Bool
  pidNs : Nat
  pidForChildren : Nat
  files : Nat
  mm : Nat
  deriving DecidableEq

structure State where
  procs : List Proc
  nextPid : Nat
  numbering : PidNs.Table
  nextNs : Nat
  cgroups : Cgroup.Tree
  /-- The counts of pipes and sockets. -/
  refs : Fds.Fd → Nat
  tables : List (List Fds.Fd)
  spaces : Nat

structure Args where
  flags : Flags
  /-- `CLONE_INTO_CGROUP`. -/
  cgroup : Option Nat

structure Env where
  /-- `RLIMIT_NPROC`. -/
  nproc : Nat
  maxTasks : Nat
  privileged : Bool
  chrooted : Bool
  /-- `namespaces_for_clone` finds an id for each new namespace. -/
  namespaces : Bool
  /-- The virtual CPU can be copied. -/
  vcpuForks : Bool
  /-- What `alloc_pid` returns. -/
  pid : Nat
  /-- `enter_user_namespace` succeeds. -/
  userFits : Bool
  /-- There may be one more mount namespace. -/
  mountFits : Bool
  /-- `try_fork` finds memory. -/
  memoryFits : Bool

def inconsistent (flags : Flags) : Bool :=
  (has flags cloneFs && has flags (cloneNewns ||| cloneNewuser)) ||
    (has flags cloneThread && !has flags cloneSighand) ||
    (has flags cloneSighand && !has flags cloneVm) ||
    (has flags cloneSighand && has flags cloneClearSighand)

def needsPrivilege : Flags :=
  cloneNewns ||| cloneNewcgroup ||| cloneNewuts ||| cloneNewipc ||| cloneNewpid ||| cloneNewnet

namespace State

/-- `free_task_slot`, as far as the numbering and the cgroups go. -/
def free (s : State) (p : Proc) : State :=
  { s with
    procs := s.procs.erase p
    numbering := s.numbering.removeTask p.pid p.pidNs
    cgroups := s.cgroups.release p.pid }

def unwaited (s : State) : List Proc := s.procs.filter fun p => p.zombie && p.unwaited

def reapUnwaited (s : State) : State := s.unwaited.foldl free s

def refused (s : State) (c : Proc) (a : Args) (env : Env) : Option Errno :=
  if c.ruid ≠ 0 && env.nproc ≤ (s.procs.filter (·.ruid = c.ruid)).length + 1 then some .eagain
  else if env.maxTasks ≤ s.procs.length then some .eagain
  else if has a.flags cloneThread &&
      (has a.flags (cloneNewpid ||| cloneNewuser) || c.pidForChildren ≠ c.pidNs) then some .einval
  else if has a.flags needsPrivilege && !env.privileged && !has a.flags cloneNewuser then some .eperm
  else if has a.flags cloneNewuser && env.chrooted then some .eperm
  else if !env.namespaces then some .enospc
  else none

def newPidNamespace (s : State) (c : Proc) (ns : Nat) : PidNs.Table × Bool :=
  PidNs.Sys.newPidNamespace
    ⟨s.numbering, (c :: s.procs).map fun p => ⟨p.pid, p.tgid, p.pidNs, p.pidForChildren, p.zombie⟩,
      s.nextNs⟩ ns c.pidForChildren

/-- The PID namespace of the child; `false` if it could not be made. -/
def childNs (s : State) (c : Proc) (a : Args) : Nat × State × Bool :=
  if has a.flags cloneNewpid then
    let (table, made) := s.newPidNamespace c s.nextNs
    (s.nextNs, { s with numbering := table, nextNs := (s.nextNs + 1) % 2 ^ 32 }, made)
  else (c.pidForChildren, s, true)

def nodeFor (s : State) (c : Proc) (a : Args) : Nat := a.cgroup.getD (s.cgroups.nodeOf c.pid)

/-- `alloc_pid`, `add_task` and `cgroup_fork`. -/
def enroll (s : State) (c : Proc) (a : Args) (pid ns : Nat) : State :=
  { s with
    nextPid := pid + 1
    numbering := s.numbering.addTask pid ns
    cgroups := s.cgroups.attachNew pid (s.nodeFor c a) }

def lateError (a : Args) (env : Env) : Option Errno :=
  let shareVm := has a.flags cloneVm && (has a.flags cloneThread || !has a.flags cloneVfork)
  if has a.flags cloneNewuser && !env.userFits then some .enospc
  else if has a.flags cloneNewns && !env.mountFits then some .enospc
  else if !shareVm && !env.memoryFits then some .enomem
  else none

def counted : Fds.Fd → Bool
  | .other => false
  | _ => true

def install (s : State) (c : Proc) (a : Args) (pid ns : Nat) : State :=
  let thread := has a.flags cloneThread
  let shareVm := has a.flags cloneVm && (thread || !has a.flags cloneVfork)
  let shareFiles := has a.flags cloneFiles
  let fds := s.tables.getD c.files []
  { s with
    refs := if shareFiles then s.refs else fun e => s.refs e + (fds.filter counted).count e
    tables := if shareFiles then s.tables else s.tables ++ [fds]
    spaces := if shareVm then s.spaces else s.spaces + 1
    procs := s.procs ++ [{ c with
      pid := pid
      tgid := if thread then c.tgid else pid
      zombie := false
      unwaited := thread
      pidNs := ns
      pidForChildren := ns
      files := if shareFiles then c.files else s.tables.length
      mm := if shareVm then c.mm else s.spaces }] }

/-- `do_clone` from `accepts_tasks` on. -/
def create (s : State) (c : Proc) (a : Args) (env : Env) (ns : Nat) : Except Errno Nat × State :=
  if !s.numbering.acceptsTasks ns then (.error .enomem, s)
  else if !s.cgroups.canFork (s.nodeFor c a) a.cgroup.isSome then (.error .eagain, s)
  else if !env.vcpuForks then (.error .eagain, s)
  else
    let s := s.enroll c a env.pid ns
    match lateError a env with
    | some e => (.error e, s)
    | none => (.ok env.pid, s.install c a env.pid ns)

def doClone (s : State) (c : Proc) (a : Args) (env : Env) : Except Errno Nat × State :=
  if has a.flags (~~~cloneAllFlags) then (.error .einval, s)
  else if inconsistent a.flags then (.error .einval, s)
  else
    let s := s.reapUnwaited
    match s.refused c a env with
    | some e => (.error e, s)
    | none =>
      let (ns, s, made) := s.childNs c a
      if !made then (.error .enospc, s) else s.create c a env ns

end State

end NixVm.Clone
