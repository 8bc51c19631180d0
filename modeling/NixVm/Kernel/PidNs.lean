/-
PID namespaces: the numbers a task has in each (`src/kernel/pidns.rs`), and the calls that make,
join and leave them.

Namespace 0 is the initial one, whose numbers are the global ids; it has no entry. The loop over
the parents of a namespace gets as many turns as namespaces may be deep.

A number is an `i32` and the counter wraps, as does that of the ids of namespaces; numbers stand
here for their 32 bits. `given` lists the
numbers a namespace has handed out and is not a field of the source.
-/
import NixVm.Lib.Run
import NixVm.Lib.Weight
import NixVm.Kernel.Errno

namespace NixVm.PidNs

def maxDepth : Nat := 32
def maxNamespaces : Nat := 2 ^ 16

structure Ns where
  parent : Nat
  numbers : Assoc Nat Nat
  /-- Number to global id. -/
  globals : Assoc Nat Nat
  next : Nat
  init : Option Nat
  dead : Bool
  given : List Nat

def Ns.new (parent : Nat) : Ns := ⟨parent, ∅, ∅, 1, none, false, []⟩

/-- The body of `add_task`'s loop; `own`: the namespace the task is created in. -/
def Ns.add (global : Nat) (own : Bool) (n : Ns) : Ns :=
  { n with
    next := (n.next + 1) % 2 ^ 32
    numbers := n.numbers.insert global n.next
    globals := n.globals.insert n.next global
    init := if own && n.init.isNone then some global else n.init
    given := n.given ++ [n.next] }

/-- The body of `remove_task`'s loop. -/
def Ns.remove (global : Nat) (n : Ns) : Ns :=
  match n.numbers.lookup global with
  | some number => { n with numbers := n.numbers.erase global, globals := n.globals.erase number }
  | none => n

structure Table where
  entry : Nat → Option Ns

namespace Table

def insert (t : Table) (ns : Nat) (n : Ns) : Table :=
  ⟨fun id => if id = ns then some n else t.entry id⟩

def modify (t : Table) (ns : Nat) (f : Ns → Ns) : Table :=
  ⟨fun id => if id = ns then (t.entry id).map f else t.entry id⟩

/-- `ns` and the namespaces above it, for `fuel` turns. -/
def chainFrom (t : Table) : Nat → Nat → List Nat
  | 0, _ => []
  | fuel + 1, ns =>
    match t.entry ns with
    | none => []
    | some n => ns :: t.chainFrom fuel n.parent

def chain (t : Table) (ns : Nat) : List Nat := t.chainFrom maxDepth ns

/-- `create`; the error is `ENOSPC`. -/
def create (t : Table) (ns parent : Nat) : Option Table :=
  if maxDepth ≤ (t.chain parent).length + 1 then none else some (t.insert ns (.new parent))

def acceptsTasks (t : Table) (ns : Nat) : Bool := ns = 0 || (t.entry ns).any fun n => !n.dead

/-- The ids below `bound` are all there are. -/
def isParent (t : Table) (bound id : Nat) : Bool :=
  (List.range bound).any fun k => (t.entry k).any (·.parent = id)

def collectGarbage (t : Table) (bound : Nat) (inUse : List Nat) : Table :=
  ⟨fun id => (t.entry id).filter fun n =>
    !n.numbers.entries.isEmpty || inUse.contains id || t.isParent bound id⟩

def count (t : Table) (bound : Nat) : Nat :=
  ((List.range bound).filter fun id => (t.entry id).isSome).length

def addTask (t : Table) (global ns : Nat) : Table :=
  (t.chain ns).foldl (fun t id => t.modify id (Ns.add global (id = ns))) t

def removeTask (t : Table) (global ns : Nat) : Table :=
  (t.chain ns).foldl (fun t id => t.modify id (Ns.remove global)) t

def initOf (t : Table) (ns : Nat) : Option Nat := (t.entry ns).bind (·.init)

def isWithin (t : Table) (inner outer : Nat) : Bool := outer = 0 || (t.chain inner).contains outer

def close (t : Table) (ns : Nat) : Table := t.modify ns fun n => { n with dead := true }

end Table

structure Task where
  pid : Nat
  tgid : Nat
  ns : Nat
  forChildren : Nat
  zombie : Bool
  deriving DecidableEq, Repr

structure Sys where
  table : Table
  tasks : List Task
  nextNs : Nat

def Sys.init : Sys := ⟨⟨fun _ => none⟩, [⟨1, 1, 0, 0, false⟩], 1⟩

namespace Sys

def inUse (s : Sys) : List Nat := s.tasks.flatMap fun t => [t.ns, t.forChildren]

def setTask (s : Sys) (t u : Task) : Sys := { s with tasks := s.tasks.map fun v => if v = t then u else v }

/-- `new_pid_namespace`: the table, and whether there is one more. -/
def newPidNamespace (s : Sys) (ns parent : Nat) : Table × Bool :=
  let t := if s.table.count s.nextNs ≥ maxNamespaces / 2
    then s.table.collectGarbage s.nextNs s.inUse else s.table
  if t.count s.nextNs ≥ maxNamespaces then (t, false)
  else
    match t.create ns parent with
    | some t' => (t', true)
    | none => (t, false)

/-- `do_clone` from the new namespace on. `late`: the call fails after the task was numbered. -/
def clone (s : Sys) (c : Task) (newPid thread : Bool) (pid : Nat) (late : Bool) : Option Sys :=
  if c ∉ s.tasks || c.zombie || (thread && (newPid || c.ns ≠ c.forChildren)) then none
  else
    let ns := if newPid then s.nextNs else c.forChildren
    let (table, made) := if newPid then s.newPidNamespace ns c.forChildren else (s.table, true)
    let s' := { s with table := table, nextNs := if newPid then (s.nextNs + 1) % 2 ^ 32 else s.nextNs }
    if !made || !table.acceptsTasks ns then some s'
    else
      let s' := { s' with table := table.addTask pid ns }
      if late then some s'
      else some { s' with tasks := s'.tasks ++ [⟨pid, if thread then c.tgid else pid, ns, ns, false⟩] }

/-- `unshare` with `CLONE_NEWPID`. `userFails`: `CLONE_NEWUSER` is given too, at the greatest
depth. -/
def unshare (s : Sys) (c : Task) (userFails : Bool) : Option Sys :=
  if c ∉ s.tasks || c.zombie then none
  else
    let ns := s.nextNs
    -- the new namespaces are stored before the steps that can fail
    let stored := s.setTask c { c with forChildren := ns }
    let next := (ns + 1) % 2 ^ 32
    if userFails then
      -- only the user namespace is put back
      some { stored with nextNs := next }
    else
      let (table, made) := stored.newPidNamespace ns c.forChildren
      some { (if made then stored else s) with table := table, nextNs := next }

/-- `setns` to a namespace that a descriptor names: one that there is or was. -/
def setns (s : Sys) (c : Task) (target : Nat) : Option Sys :=
  if c ∉ s.tasks || c.zombie || target ≥ s.nextNs || !s.table.isWithin target c.ns then none
  else some (s.setTask c { c with forChildren := target })

/-- The end of a task, and of its namespace if it is the last of the init's. -/
def exit (s : Sys) (c : Task) : Option Sys :=
  if c ∉ s.tasks || c.zombie then none
  else
    let left := s.tasks.any fun t => t.tgid = c.tgid && t.pid ≠ c.pid && !t.zombie
    let closes := c.ns ≠ 0 && s.table.initOf c.ns = some c.tgid && !left
    some { s.setTask c { c with zombie := true } with
      table := if closes then s.table.close c.ns else s.table }

/-- `free_task_slot`. -/
def reap (s : Sys) (c : Task) : Option Sys :=
  if c ∉ s.tasks || !c.zombie then none
  else some { s with tasks := s.tasks.erase c, table := s.table.removeTask c.pid c.ns }

inductive Op
  | clone (c : Task) (newPid thread : Bool) (pid : Nat) (late : Bool)
  | unshare (c : Task) (userFails : Bool)
  | setns (c : Task) (target : Nat)
  | exit (c : Task)
  | reap (c : Task)

def step (s : Sys) : Op → Option Sys
  | .clone c newPid thread pid late => s.clone c newPid thread pid late
  | .unshare c userFails => s.unshare c userFails
  | .setns c target => s.setns c target
  | .exit c => s.exit c
  | .reap c => s.reap c

end Sys

end NixVm.PidNs
