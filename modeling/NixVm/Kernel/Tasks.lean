/-
The table of tasks and the two schedulers over it (`src/kernel/mod.rs`).

A scheduler checks a task out of its slot to run it and checks it in afterwards. The SMP one leaves
a copy of the task there, the stand-in, which is what other workers see and change, and folds some
of what they did to it into the task at the check-in.

A worker holds the lock of the task's address space while it has the task, so of the tasks that
share one only one is out at a time.

A worker's own calls change the record it has (`cur`) and the table. `log` is what the others have
done to the stand-in since the check-out; it is not a field of the source.
-/
import NixVm.Lib.Run

namespace NixVm.Tasks

/-- `ProcInfo`, the fields that another task's call reads or writes. -/
structure Task where
  pid : Nat
  tgid : Nat
  pgid : Nat
  sid : Nat
  ppid : Nat
  zombie : Bool
  isThread : Bool
  pending : Nat → Bool
  /-- `queued_siginfo`, for the signals below `SIGRTMIN`. -/
  siginfo : Nat → Option Nat
  rtQueue : Nat → List Nat
  blocked : Nat → Bool
  /-- The handler is `SIG_IGN`, or `SIG_DFL` where that ignores the signal. -/
  ignored : Nat → Bool
  futexWait : Option Nat
  futexPi : Bool
  futexWoken : Bool
  nice : Int
  /-- The filters, by number. -/
  seccomp : List Nat
  /-- Which address space. -/
  mm : Nat
  /-- Which table of limits: threads share one. -/
  rlimits : Nat
  frozen : Bool
  inFlight : Bool

def Task.first : Task where
  pid := 1
  tgid := 1
  pgid := 0
  sid := 0
  ppid := 0
  zombie := false
  isThread := false
  pending := fun _ => false
  siginfo := fun _ => none
  rtQueue := fun _ => []
  blocked := fun _ => false
  ignored := fun _ => false
  futexWait := none
  futexPi := false
  futexWoken := false
  nice := 0
  seccomp := []
  mm := 0
  rlimits := 0
  frozen := false
  inFlight := false

/-- `pgid_of`: 0 stands for the task's own id. -/
def Task.pgidOf (t : Task) : Nat := if t.pgid = 0 then t.pid else t.pgid

def Task.sidOf (t : Task) : Nat := if t.sid = 0 then t.pid else t.sid

/-- What `alloc_pid` compares an id with. -/
def Task.uses (t : Task) (pid : Nat) : Bool :=
  t.pid = pid || t.tgid = pid || t.pgid = pid || t.sid = pid

/-! ### Signals -/

def SIGCONT : Nat := 18
def SIGRTMIN : Nat := 32
def NSIG : Nat := 64

/-- `SIGSTOP`, `SIGTSTP`, `SIGTTIN` and `SIGTTOU`. -/
def isStopSignal (sig : Nat) : Bool := 19 ≤ sig && sig ≤ 22

def Task.setPending (t : Task) (sig : Nat) (b : Bool) : Task :=
  { t with pending := fun s => if s = sig then b else t.pending s }

/-- `discards`: `SIGKILL` and `SIGSTOP` never, nor anything sent to a stand-in. -/
def Task.discards (t : Task) (sig : Nat) : Bool :=
  !(!(1 ≤ sig && sig ≤ NSIG) || sig = 9 || sig = 19 || t.inFlight) && !t.blocked sig &&
    t.ignored sig

def Task.raises (t : Task) (sig : Nat) : Bool := 1 ≤ sig && sig ≤ NSIG && !t.discards sig

def Task.queued (t : Task) : Nat :=
  ((List.range (NSIG + 1)).map fun s => (t.rtQueue s).length).sum

def MAX_QUEUED : Nat := 4096

def Task.postSiginfo (t : Task) (sig info : Nat) : Task :=
  if SIGRTMIN ≤ sig then
    if t.queued < MAX_QUEUED then
      { t with rtQueue := fun s => if s = sig then t.rtQueue s ++ [info] else t.rtQueue s }
    else t
  else { t with siginfo := fun s => if s = sig then some info else t.siginfo s }

/-- Whether `apply_stop_cont` for `sig` takes a pending signal `s` back. -/
def cancels (sig s : Nat) : Bool :=
  if sig = SIGCONT then isStopSignal s else isStopSignal sig && s = SIGCONT

def Task.applyStopCont (t : Task) (sig : Nat) : Task :=
  { t with pending := fun s => t.pending s && !cancels sig s }

/-- `raise_with` (or `raise`, without info) and `apply_stop_cont`. -/
def Task.post (t : Task) (sig : Nat) (info : Option Nat) : Task :=
  let t' :=
    if t.raises sig then
      let t := t.setPending sig true
      match info with
      | some q => t.postSiginfo sig q
      | none => t
    else t
  t'.applyStopCont sig

/-! ### What others do to a stand-in -/

inductive Update
  | signal (sig : Nat)
  | info (sig q : Nat)
  | queue (sig q : Nat)
  | woken
  | pgid (g : Nat)
  | nice (n : Int)
  | seccomp (filters : List Nat)
  deriving DecidableEq, Repr

/-- A pending signal that was taken back is no longer there to be kept. -/
def Update.cancelledBy (sig : Nat) : Update → Bool
  | .signal s | .info s _ => cancels sig s
  | _ => false

def Task.posted (t : Task) (sig : Nat) (info : Option Nat) : List Update :=
  if t.raises sig then
    .signal sig :: (match info with
      | some q =>
        if SIGRTMIN ≤ sig then if t.queued < MAX_QUEUED then [.queue sig q] else []
        else [.info sig q]
      | none => [])
  else []

/-! ### The table and the tasks that are out -/

/-- A task that a worker has, and what the worker noted when it took it. -/
structure Out where
  cur : Task
  pending : Nat → Bool
  ppid : Nat
  frozen : Bool
  rtLens : Nat → Nat
  log : List Update

structure Sys where
  smp : Bool
  procs : List (Option Task)
  /-- `free_proc_slots`, the last one first. -/
  freeSlots : List Nat
  out : Nat → Option Out
  /-- The number of slices in progress. -/
  busy : Nat
  nextPid : Nat
  wrapped : Bool
  /-- The tables of limits, by resource. -/
  limits : Nat → Nat → Nat
  nextLimits : Nat
  nextMm : Nat

def Sys.init (smp : Bool) : Sys where
  smp := smp
  procs := [some .first]
  freeSlots := []
  out := fun _ => none
  busy := 0
  nextPid := 2
  wrapped := false
  limits := fun _ _ => 0
  nextLimits := 1
  nextMm := 1

namespace Sys

def slot (s : Sys) (i : Nat) : Option Task := s.procs.getD i none

def setSlot (s : Sys) (i : Nat) (t : Option Task) : Sys := { s with procs := s.procs.set i t }

def setOut (s : Sys) (i : Nat) (o : Option Out) : Sys :=
  { s with out := fun j => if j = i then o else s.out j }

def setCur (s : Sys) (i : Nat) (o : Out) (t : Task) : Sys := s.setOut i (some { o with cur := t })

/-- Change the record in slot `j`, a stand-in or not. -/
def touch (s : Sys) (j : Nat) (f : Task → Task) (log : List Update → List Update) : Sys :=
  match s.slot j with
  | none => s
  | some t =>
    let s := s.setSlot j (some (f t))
    s.setOut j ((s.out j).map fun o => { o with log := log o.log })

/-! ### Check-out and check-in -/

/-- A worker holds the lock of the address space. -/
def mmLocked (s : Sys) (mm : Nat) : Bool :=
  (List.range s.procs.length).any fun j => (s.out j).any (·.cur.mm = mm)

def checkOut (s : Sys) (i : Nat) : Option Sys :=
  match s.slot i, s.out i with
  | some t, none =>
    if t.zombie || (!s.smp && s.busy ≠ 0) || s.mmLocked t.mm then none
    else
      let s := s.setSlot i (if s.smp then some { t with inFlight := true } else none)
      some { s.setOut i (some ⟨t, t.pending, t.ppid, t.frozen, fun g => (t.rtQueue g).length, []⟩)
        with busy := s.busy + 1 }
  | _, _ => none

/-- What the check-in of `smp_service_step` takes over from the stand-in. -/
def fold (o : Out) (standIn : Task) : Task :=
  let new := fun sig => standIn.pending sig && !o.pending sig
  { o.cur with
    pending := fun sig => o.cur.pending sig || new sig
    siginfo := fun sig =>
      if 1 ≤ sig ∧ sig < SIGRTMIN ∧ new sig then
        match standIn.siginfo sig with
        | some q => some q
        | none => o.cur.siginfo sig
      else o.cur.siginfo sig
    rtQueue := fun sig => o.cur.rtQueue sig ++ (standIn.rtQueue sig).drop (o.rtLens sig)
    ppid := if standIn.ppid ≠ o.ppid then standIn.ppid else o.cur.ppid
    frozen := if standIn.frozen ≠ o.frozen then standIn.frozen else o.cur.frozen }

def merged (s : Sys) (i : Nat) (o : Out) : Task :=
  if s.smp then
    match s.slot i with
    | some standIn => fold o standIn
    | none => o.cur
  else o.cur

def checkIn (s : Sys) (i : Nat) : Option Sys :=
  (s.out i).map fun o =>
    { (s.setSlot i (some (s.merged i o))).setOut i none with busy := s.busy - 1 }

/-! ### Task ids -/

def pidMax : Nat := 2 ^ 22

def inUse (s : Sys) (pid : Nat) : Bool := s.procs.any fun p => p.any (·.uses pid)

def advance (s : Sys) : Sys :=
  if s.nextPid + 1 ≥ pidMax then { s with nextPid := 2, wrapped := true }
  else { s with nextPid := s.nextPid + 1 }

/-- `alloc_pid`: after `pidMax` rounds the loop of the source would go on for ever. -/
def allocPid : Nat → Sys → Option (Nat × Sys)
  | 0, _ => none
  | n + 1, s =>
    let pid := s.nextPid
    let s := s.advance
    if !s.wrapped || !s.inUse pid then some (pid, s) else allocPid n s

/-- The task that `do_clone` makes: nothing pending, the caller's group and session. -/
def child (c : Task) (pid : Nat) (thread parent : Bool) (mm limits : Nat) : Task :=
  { c with
    pid := pid
    zombie := false
    pending := fun _ => false
    siginfo := fun _ => none
    rtQueue := fun _ => []
    futexWait := none
    futexPi := false
    futexWoken := false
    pgid := c.pgidOf
    sid := c.sidOf
    tgid := if thread then c.tgid else pid
    ppid := if thread || parent then c.ppid else c.pid
    isThread := thread
    mm := mm
    rlimits := limits }

def install (s : Sys) (t : Task) : Sys :=
  match s.freeSlots with
  | slot :: rest => { s.setSlot slot (some t) with freeSlots := rest }
  | [] => { s with procs := s.procs ++ [some t] }

/-- `do_clone` by the task in slot `i`, once no limit refuses it; `vm`: the child shares the address
space, as threads do. -/
def fork (s : Sys) (i : Nat) (thread parent vm : Bool) : Option Sys :=
  match s.out i, s.allocPid pidMax with
  | some o, some (pid, s) =>
    if thread then some (s.install (child o.cur pid thread parent o.cur.mm o.cur.rlimits))
    else
      -- `private_copy` of the limits
      let n := s.nextLimits
      let mm := if vm then o.cur.mm else s.nextMm
      let s := { s with
        limits := fun k => if k = n then s.limits o.cur.rlimits else s.limits k
        nextLimits := n + 1
        nextMm := s.nextMm + 1 }
      some (s.install (child o.cur pid thread parent mm n))
  | _, _ => none

/-! ### The calls of a task that is out -/

def find (s : Sys) (pid : Nat) : Option Nat :=
  (List.range s.procs.length).find? fun j => (s.slot j).any (·.pid = pid)

def setpgid (s : Sys) (i pid pgid : Nat) : Option Sys :=
  (s.out i).map fun o =>
    if pid = 0 ∨ pid = o.cur.pid then
      s.setCur i o { o.cur with pgid := if pgid = 0 then o.cur.pid else pgid }
    else
      match s.find pid with
      | some j =>
        let g := if pgid = 0 then pid else pgid
        s.touch j (fun t => { t with pgid := g }) (· ++ [.pgid g])
      | none => s

def setsid (s : Sys) (i : Nat) : Option Sys :=
  (s.out i).map fun o => s.setCur i o { o.cur with sid := o.cur.pid, pgid := o.cur.pid }

def exit (s : Sys) (i : Nat) : Option Sys :=
  (s.out i).map fun o => s.setCur i o { o.cur with zombie := true }

def touchAll (s : Sys) (sel : Task → Bool) (f : Task → Task)
    (log : List Update → List Update) : Sys :=
  (List.range s.procs.length).foldl
    (fun s j => if (s.slot j).any sel then s.touch j f log else s) s

/-- `exit_group_with`: the stand-ins of the group are marked. -/
def exitGroup (s : Sys) (i : Nat) : Option Sys :=
  (s.out i).map fun o =>
    (s.touchAll (fun t => t.tgid = o.cur.tgid && !t.zombie) (fun t => { t with zombie := true })
      id).setCur i o { o.cur with zombie := true }

/-- `free_task_slot` of a zombie, by `wait4` or when a task is created. -/
def reap (s : Sys) (j : Nat) : Option Sys :=
  match s.slot j with
  | some t => if t.zombie then some { s.setSlot j none with freeSlots := j :: s.freeSlots } else none
  | none => none

/-- `post_signal` to task `pid`, of which there is one record in the table. -/
def kill (s : Sys) (i j sig : Nat) (info : Option Nat) : Option Sys :=
  match s.out i, s.slot j with
  | some _, some t =>
    some (s.touch j (·.post sig info) fun log =>
      log.filter (fun u => !u.cancelledBy sig) ++ t.posted sig info)
  | _, _ => none

def wake (s : Sys) (i j key : Nat) : Option Sys :=
  match s.out i, s.slot j with
  | some _, some t =>
    if !t.futexWoken && !t.futexPi && t.futexWait = some key then
      some (s.touch j (fun t => { t with futexWoken := true }) (· ++ [.woken]))
    else none
  | _, _ => none

/-- `sys_setpriority` of another task. -/
def setNice (s : Sys) (i j : Nat) (n : Int) : Option Sys :=
  (s.out i).map fun _ => s.touch j (fun t => { t with nice := n }) (· ++ [.nice n])

/-- `sys_seccomp` with a new filter and `FLAG_TSYNC`. -/
def tsync (s : Sys) (i filter : Nat) : Option Sys :=
  (s.out i).map fun o =>
    let filters := o.cur.seccomp ++ [filter]
    (s.touchAll (fun t => t.tgid = o.cur.tgid) (fun t => { t with seccomp := filters })
      (· ++ [.seccomp filters])).setCur i o { o.cur with seccomp := filters }

/-- `sys_prlimit64` of another task: the table of limits it uses. -/
def prlimit (s : Sys) (i j res val : Nat) : Option Sys :=
  match s.out i, s.slot j with
  | some _, some t =>
    some { s with
      limits := fun k r => if k = t.rlimits ∧ r = res then val else s.limits k r }
  | _, _ => none

/-- The ids, the address space and the table of limits, which a task's own servicing leaves alone.
-/
def sameIds (t u : Task) : Bool :=
  t.pid = u.pid && t.tgid = u.tgid && t.pgid = u.pgid && t.sid = u.sid && t.mm = u.mm &&
    t.rlimits = u.rlimits

/-- Anything else that servicing does to the task's own record. -/
def own (s : Sys) (i : Nat) (u : Task) : Option Sys :=
  match s.out i with
  | some o => if sameIds o.cur u then some (s.setCur i o u) else none
  | none => none

inductive Op
  | checkOut (i : Nat)
  | checkIn (i : Nat)
  | fork (i : Nat) (thread parent vm : Bool)
  | setpgid (i pid pgid : Nat)
  | setsid (i : Nat)
  | exit (i : Nat)
  | exitGroup (i : Nat)
  | reap (j : Nat)
  | kill (i j sig : Nat) (info : Option Nat)
  | wake (i j key : Nat)
  | setNice (i j : Nat) (n : Int)
  | tsync (i filter : Nat)
  | prlimit (i j res val : Nat)
  | own (i : Nat) (u : Task)

def step (s : Sys) : Op → Option Sys
  | .checkOut i => s.checkOut i
  | .checkIn i => s.checkIn i
  | .fork i thread parent vm => s.fork i thread parent vm
  | .setpgid i pid pgid => s.setpgid i pid pgid
  | .setsid i => s.setsid i
  | .exit i => s.exit i
  | .exitGroup i => s.exitGroup i
  | .reap j => s.reap j
  | .kill i j sig info => s.kill i j sig info
  | .wake i j key => s.wake i j key
  | .setNice i j n => s.setNice i j n
  | .tsync i filter => s.tsync i filter
  | .prlimit i j res val => s.prlimit i j res val
  | .own i u => s.own i u

end Sys

end NixVm.Tasks
