/-
The cgroup tree and what the kernel does with it (`src/fs/cgroupfs.rs`, `src/kernel/cgroup.rs`),
under the serial scheduler.

A node counts the tasks in it and below, zombies included (`tasks`), and those that have not exited
(`live`). Tasks outside the root have an entry in `members`.

The counts are `u64` that saturate; they stay far below the top, as task ids do. The first process
is charged nowhere.
-/
import NixVm.Lib.Run
import NixVm.Lib.Weight
import NixVm.Kernel.Errno

namespace NixVm.Cgroup

structure Node where
  name : String
  parent : Option Nat
  children : Assoc String Nat
  /-- The `pids` controller is handed to the children. -/
  pidsBelow : Bool
  pidsMax : Option Nat
  maxDepth : Option Nat
  maxDescendants : Option Nat
  tasks : Nat
  live : Nat

def Node.new (name : String) (parent : Option Nat) : Node :=
  ⟨name, parent, ∅, false, none, none, none, 0, 0⟩

structure Member where
  node : Nat
  live : Bool
  deriving DecidableEq, Repr

def root : Nat := 0

structure Tree where
  nodes : Nat → Option Node
  nextId : Nat
  members : Assoc Nat Member

def Tree.init : Tree := ⟨fun id => if id = root then some (.new "" none) else none, 1, ∅⟩

namespace Tree

def setNode (t : Tree) (id : Nat) (n : Option Node) : Tree :=
  { t with nodes := fun k => if k = id then n else t.nodes k }

def modify (t : Tree) (id : Nat) (f : Node → Node) : Tree := t.setNode id ((t.nodes id).map f)

def nodeOf (t : Tree) (tid : Nat) : Nat := ((t.members.lookup tid).map (·.node)).getD root

def parentOf (t : Tree) (id : Nat) : Option Nat := (t.nodes id).bind (·.parent)

/-- A node and its ancestors, as far as `fuel` turns go. -/
def chainFrom (t : Tree) : Nat → Nat → List Nat
  | 0, _ => []
  | fuel + 1, id =>
    match t.parentOf id with
    | none => [id]
    | some p => id :: t.chainFrom fuel p

/-- `chain`: while `nextId` has not wrapped the ids get smaller on the way up, so these turns are
enough. -/
def chain (t : Tree) (id : Nat) : List Nat := t.chainFrom (id + 1) id

def hasPopulatedChild (t : Tree) (id : Nat) : Bool :=
  (t.nodes id).any fun n => n.children.entries.any fun c => (t.nodes c.2).any fun m => m.live > 0

def checkAttach (t : Tree) (id : Nat) : Bool :=
  (t.nodes id).any fun n => !(id ≠ root && n.pidsBelow && t.hasPopulatedChild id)

def canFork (t : Tree) (id : Nat) (explicit : Bool) : Bool :=
  (!explicit || t.checkAttach id) &&
    (t.chain id).all fun k => (t.nodes k).any fun n => n.pidsMax.all fun max => n.tasks + 1 ≤ max

def charge (t : Tree) (chain : List Nat) (tasks live : Int) : Tree :=
  chain.foldl (fun t id => t.modify id fun n =>
    { n with tasks := (n.tasks + tasks).toNat, live := (n.live + live).toNat }) t

def attachNew (t : Tree) (tid id : Nat) : Tree :=
  let t := t.charge (t.chain id) 1 1
  if id ≠ root then { t with members := t.members.insert tid ⟨id, true⟩ } else t

def exit (t : Tree) (tid : Nat) : Tree :=
  match t.members.lookup tid with
  | some m =>
    if m.live then
      let t := { t with members := t.members.insert tid { m with live := false } }
      t.charge (t.chain m.node) 0 (-1)
    else t
  | none => t.charge (t.chain root) 0 (-1)

def release (t : Tree) (tid : Nat) : Tree :=
  let t := if (t.members.lookup tid).any (·.live) then t.exit tid else t
  let id := t.nodeOf tid
  let t := { t with members := t.members.erase tid }
  t.charge (t.chain id) (-1) 0

/-- One round of `migrate`. -/
def move (t : Tree) (id tid : Nat) (alive : Bool) : Tree :=
  if t.nodeOf tid = id then t
  else
    let live : Bool := alive && (t.members.lookup tid).all (·.live)
    let n : Int := if live then 1 else 0
    let t := t.charge (t.chain (t.nodeOf tid)) (-1) (-n)
    let t := t.charge (t.chain id) 1 n
    if id = root then { t with members := t.members.erase tid }
    else { t with members := t.members.insert tid ⟨id, live⟩ }

def migrate (t : Tree) (tids : List (Nat × Bool)) (id : Nat) : Tree :=
  tids.foldl (fun t p => t.move id p.1 p.2) t

/-- `subtree`: the list grows while it is gone through. -/
def subtreeFrom (t : Tree) : Nat → List Nat → List Nat
  | 0, _ => []
  | _, [] => []
  | fuel + 1, id :: rest =>
    id :: t.subtreeFrom fuel (rest ++ ((t.nodes id).map fun n => n.children.entries.map (·.2)).getD [])

def subtree (t : Tree) (id : Nat) : List Nat := t.subtreeFrom t.nextId [id]

def depth (t : Tree) (id : Nat) : Nat := (t.chain id).length - 1

def descendants (t : Tree) (id : Nat) : Nat := (t.subtree id).length - 1

def allows (t : Tree) (newDepth id : Nat) : Bool :=
  (t.nodes id).any fun n => n.maxDepth.all (fun d => newDepth - t.depth id ≤ d) &&
    n.maxDescendants.all (fun d => t.descendants id + 1 ≤ d)

/-- `mkdir`; `file` that a file of this name is there. -/
def mkdir (t : Tree) (parent : Nat) (name : String) (file : Bool) : Option Tree :=
  match t.nodes parent with
  | none => none
  | some p =>
    if (p.children.lookup name).isSome || file || name = "." || name = ".." ||
        name.toList.contains (Char.ofNat 10) then none
    else if !(t.chain parent).all (t.allows (t.depth parent + 1)) then none
    else
      let id := t.nextId
      let t := { t.setNode id (some (.new name (some parent))) with nextId := (id + 1) % 2 ^ 32 }
      some (t.modify parent fun p => { p with children := p.children.insert name id })

def moveUp (parent : Nat) (ms : Assoc Nat Member) (tid : Nat) : Assoc Nat Member :=
  match ms.lookup tid with
  | some m => ms.insert tid { m with node := parent }
  | none => ms

def tidsIn (t : Tree) (id : Nat) : List Nat :=
  (t.members.entries.filter fun e => e.2.node = id).map (·.1)

/-- `rmdir`: what is left in the node moves up. -/
def rmdir (t : Tree) (id : Nat) : Option Tree :=
  match t.nodes id with
  | none => none
  | some n =>
    match n.parent with
    | none => none
    | some parent =>
      if !n.children.entries.isEmpty || n.live > 0 then none
      else
        let t := { t with members := (t.tidsIn id).foldl (moveUp parent) t.members }
        some ((t.setNode id none).modify parent fun p => { p with children := p.children.erase n.name })

/-- A write to a file of limits. -/
def setLimits (t : Tree) (id : Nat) (below : Bool) (pids depth descendants : Option Nat) : Tree :=
  t.modify id fun n => { n with
    pidsBelow := below, pidsMax := pids, maxDepth := depth, maxDescendants := descendants }

end Tree

structure Task where
  pid : Nat
  tgid : Nat
  zombie : Bool
  deriving DecidableEq, Repr

structure Sys where
  tree : Tree
  tasks : List Task

def Sys.init : Sys := ⟨Tree.init, [⟨1, 1, false⟩]⟩

namespace Sys

def syncExits (s : Sys) : Sys :=
  let live := (s.tree.members.entries.filter (·.2.live)).map (·.1)
  { s with tree := live.foldl (fun t tid =>
      match s.tasks.find? (·.pid = tid) with
      | some u => if u.zombie then t.exit tid else t
      | none => t.exit tid) s.tree }

/-- `cgroup_can_fork` and `cgroup_fork`; `late`: the call fails afterwards. -/
def fork (s : Sys) (c : Task) (thread : Bool) (into : Option Nat) (pid : Nat) (late : Bool) :
    Option Sys :=
  let id := into.getD (s.tree.nodeOf c.pid)
  if c ∉ s.tasks || c.zombie || !s.tree.canFork id into.isSome then none
  else
    let s := { s with tree := s.tree.attachNew pid id }
    if late then some s
    else some { s with tasks := s.tasks ++ [⟨pid, if thread then c.tgid else pid, false⟩] }

def exit (s : Sys) (c : Task) : Option Sys :=
  if c ∉ s.tasks then none
  else some { s with tasks := s.tasks.map fun u => if u = c then { c with zombie := true } else u }

/-- `free_task_slot`. -/
def reap (s : Sys) (c : Task) : Option Sys :=
  if c ∉ s.tasks || !c.zombie then none
  else some ⟨s.tree.release c.pid, s.tasks.erase c⟩

/-- `cgroup_move`, once the writer may. -/
def migrate (s : Sys) (tgid id : Nat) : Option Sys :=
  let s := s.syncExits
  if !s.tree.checkAttach id then none
  else
    let moving := (s.tasks.filter (·.tgid = tgid)).map fun u => (u.pid, !u.zombie)
    some { s with tree := s.tree.migrate moving id }

inductive Op
  | fork (c : Task) (thread : Bool) (into : Option Nat) (pid : Nat) (late : Bool)
  | exit (c : Task)
  | reap (c : Task)
  | migrate (tgid id : Nat)
  | refresh
  | mkdir (parent : Nat) (name : String) (file : Bool)
  | rmdir (id : Nat)
  | setLimits (id : Nat) (below : Bool) (pids depth descendants : Option Nat)

def step (s : Sys) : Op → Option Sys
  | .fork c thread into pid late => s.fork c thread into pid late
  | .exit c => s.exit c
  | .reap c => s.reap c
  | .migrate tgid id => s.migrate tgid id
  | .refresh => some s.syncExits
  | .mkdir parent name file => (s.tree.mkdir parent name file).map fun t => { s with tree := t }
  | .rmdir id => (s.tree.rmdir id).map fun t => { s with tree := t }
  | .setLimits id below pids depth descendants =>
    some { s with tree := s.tree.setLimits id below pids depth descendants }

end Sys

end NixVm.Cgroup
