/-
Descriptors and the counts behind them (`src/kernel/mod.rs`, `sys_close`, `bump_pipe`, `do_clone`,
`exit_task`; `src/kernel/attrs.rs`, `sys_unshare`; `src/kernel/net.rs`, `Net::bump`,
`Net::release`, `sys_connect`, `sys_accept4`, `emit_scm_rights`).

A pipe counts the descriptors of each of its ends, and so does a connected pair of sockets; a
socket that is not connected has one count. Descriptors are in the tables tasks use, in flight on a
socket pair (`SCM_RIGHTS`), or, for the far end of a connection that has not been accepted, in a
listener's backlog.
-/
import NixVm.Lib.Run

namespace NixVm.Fds

/-- What a descriptor names; `true` is end 1 of a socket. -/
inductive Fd
  | pipeRead (i : Nat)
  | pipeWrite (i : Nat)
  | socket (sock : Nat) (far : Bool)
  | other
  deriving DecidableEq

structure Entry where
  num : Int
  fd : Fd
  cloexec : Bool
  deriving DecidableEq

abbrev Table := List Entry

def Table.fds (t : Table) : List Fd := t.map (·.fd)

def Table.get (t : Table) (n : Int) : Option Fd := (t.find? (·.num = n)).map (·.fd)

def Table.lowest (t : Table) (low : Int) : Int :=
  let free := (List.range (t.length + 1)).find? fun k : Nat => t.all (·.num ≠ low + (k : Int))
  low + (free.getD 0 : Nat)

def Table.allocFrom (t : Table) (fd : Fd) (low : Int) (cloexec : Bool) : Table :=
  ⟨t.lowest low, fd, cloexec⟩ :: t

/-- A listener has the sockets to be accepted; a pair, for each end, the descriptors on the way to
it. -/
inductive Kind
  | idle
  | listener (backlog : List Nat)
  | pair (near far : List (List Fd))
  | plain

def Kind.backlog : Kind → List Fd
  | .listener b => b.map (.socket · true)
  | _ => []

def Kind.inFlight : Kind → List Fd
  | .pair near far => near.flatten ++ far.flatten
  | _ => []

structure Task where
  files : Nat
  tgid : Nat
  zombie : Bool
  deriving DecidableEq

/-- `refs` are the counts of pipe ends and sockets; `free` the slots of `tables` no task refers to.
-/
structure State where
  refs : Fd → Nat
  pipes : Nat
  socks : List Kind
  tables : List Table
  procs : List Task
  free : List Nat

def State.table (s : State) (f : Nat) : Table := s.tables.getD f []

def State.setTable (s : State) (f : Nat) (t : Table) : State :=
  { s with tables := s.tables.set f t }

def State.setSock (s : State) (k : Nat) (x : Kind) : State := { s with socks := s.socks.set k x }

def State.addSock (s : State) (x : Kind) : State := { s with socks := s.socks ++ [x] }

def State.setRefs (s : State) (e : Fd) (n : Nat) : State :=
  { s with refs := fun e' => if e' = e then n else s.refs e' }

/-! ### The counts -/

/-- The count `bump_pipe` changes for a descriptor, if there is one. -/
def State.counter (s : State) : Fd → Option Fd
  | .socket k far =>
    match s.socks[k]? with
    | none => none
    | some (.pair ..) => some (.socket k far)
    | some _ => some (.socket k false)
  | .other => none
  | fd => some fd

/-- `bump_pipe(fd, true)`. -/
def State.retain (s : State) (fd : Fd) : State :=
  match s.counter fd with
  | none => s
  | some e => s.setRefs e (s.refs e + 1)

/-- `Net::release`: the last descriptor is gone, and waiting connections lose their far end. -/
def State.release (s : State) (k : Nat) : State :=
  match s.socks[k]? with
  | some (.listener b) => { s with
      socks := s.socks.set k .idle
      refs := fun e => if e ∈ b.map (Fd.socket · true) then 0 else s.refs e }
  | some .plain => s.setSock k .idle
  | _ => s

/-- `bump_pipe(fd, false)`. -/
def State.drop (s : State) (fd : Fd) : State :=
  match s.counter fd with
  | none => s
  | some e =>
    let s' := s.setRefs e (s.refs e - 1)
    match fd with
    | .socket k _ =>
      match s.socks[k]? with
      | some (.pair ..) => s'
      | _ => if s'.refs (.socket k false) = 0 then s'.release k else s'
    | _ => s'

def State.retainAll (s : State) (fds : List Fd) : State := fds.foldl State.retain s

def State.dropAll (s : State) (fds : List Fd) : State := fds.foldl State.drop s

/-! ### The calls -/

def State.running (s : State) (t : Nat) : Option Task := s.procs[t]?.filter fun p => !p.zombie

def State.alloc (s : State) (f : Nat) (fd : Fd) (low : Int) (cloexec : Bool) : State :=
  s.setTable f ((s.table f).allocFrom fd low cloexec)

def State.pipe2 (s : State) (f : Nat) (cloexec : Bool) : State :=
  let i := s.pipes
  let s := ({ s with pipes := i + 1 }.setRefs (.pipeRead i) 1).setRefs (.pipeWrite i) 1
  (s.alloc f (.pipeRead i) 0 cloexec).alloc f (.pipeWrite i) 0 cloexec

/-- `socket`, for a stream or for another kind. -/
def State.socket (s : State) (f : Nat) (stream cloexec : Bool) : State :=
  let k := s.socks.length
  let s := (s.addSock (if stream then .idle else .plain)).setRefs (.socket k false) 1
  s.alloc f (.socket k false) 0 cloexec

/-- `socketpair` of stream sockets. -/
def State.socketpair (s : State) (f : Nat) (cloexec : Bool) : State :=
  let k := s.socks.length
  let s := ((s.addSock (.pair [] [])).setRefs (.socket k false) 1).setRefs (.socket k true) 1
  (s.alloc f (.socket k false) 0 cloexec).alloc f (.socket k true) 0 cloexec

def State.connect (s : State) (k l : Nat) : Option State :=
  match s.socks[k]?, s.socks[l]? with
  | some .idle, some (.listener b) =>
    if b.length < 4096 then
      some (((s.setSock k (.pair [] [])).setSock l (.listener (b ++ [k]))).setRefs
        (.socket k true) 1)
    else none
  | _, _ => none

def State.close (s : State) (f : Nat) (n : Int) : State :=
  match (s.table f).get n with
  | none => s
  | some fd => (s.setTable f ((s.table f).eraseP (·.num = n))).drop fd

/-- `unshare(CLONE_FILES)`: if any task, dead or alive, refers to the caller's table, it stays
behind as a copy. -/
def State.unshare (s : State) (t : Nat) (p : Task) : State :=
  if (s.procs.eraseIdx t).any (·.files = p.files) then
    let s := s.retainAll (s.table p.files).fds
    { s with
      tables := s.tables ++ [s.table p.files]
      procs := s.procs.set t { p with files := s.tables.length } }
  else s

/-- The tail of `exit`: the table is closed unless another living task uses it. -/
def State.exitTask (s : State) (t : Nat) (p : Task) : State :=
  let s' := { s with procs := s.procs.set t { p with zombie := true } }
  if s'.procs.any fun q => q.files = p.files && !q.zombie then s'
  else (s'.setTable p.files []).dropAll (s.table p.files).fds

def State.drainTable (s : State) (f : Nat) : State := (s.setTable f []).dropAll (s.table f).fds

/-- `exit_group`: the group dies, and its tables, other than the caller's, are closed. -/
def State.exitGroup (s : State) (t : Nat) (p : Task) : State :=
  let doomed := fun q : Task => q.tgid = p.tgid && !q.zombie
  let ids := ((s.procs.eraseIdx t).filter doomed).map (·.files)
  let s := { s with procs := (s.procs.map fun q =>
    if doomed q then { q with zombie := true } else q).set t p }
  ((ids.filter (· ≠ p.files)).foldl State.drainTable s).exitTask t p

/-- `wait` for a zombie: its slot goes, and its table if nobody refers to it. -/
def State.reap (s : State) (t : Nat) (p : Task) : State :=
  let s := { s with procs := s.procs.eraseIdx t }
  if s.procs.any (·.files = p.files) then s
  else { s.setTable p.files [] with free := p.files :: s.free }

/-- `clone`.  A private table goes into a free slot, if there is one. -/
def State.clone (s : State) (p : Task) (share : Bool) (tgid : Nat) : State :=
  if share then { s with procs := s.procs ++ [⟨p.files, tgid, false⟩] }
  else
    let copy := s.table p.files
    let s := s.retainAll copy.fds
    match s.free with
    | slot :: rest => { s with
        tables := s.tables.set slot copy
        free := rest
        procs := s.procs ++ [⟨slot, tgid, false⟩] }
    | [] => { s with
        tables := s.tables ++ [copy]
        procs := s.procs ++ [⟨s.tables.length, tgid, false⟩] }

def State.queue (s : State) (k : Nat) (far : Bool) : Option (List (List Fd)) :=
  match s.socks[k]? with
  | some (.pair q r) => some (if far then r else q)
  | _ => none

def State.setQueue (s : State) (k : Nat) (far : Bool) (g : List (List Fd)) : State :=
  match s.socks[k]? with
  | some (.pair q r) => s.setSock k (if far then .pair q g else .pair g r)
  | _ => s

/-- `recvmsg` with descriptors: what does not fit is dropped, and the call fails first if the data
cannot be stored. -/
def State.deliver (s : State) (f : Nat) (fds : List Fd) (capacity : Nat) (cloexec fault : Bool) :
    State :=
  if fault then s
  else
    (fds.take capacity).foldl (fun s fd => s.alloc f fd 0 cloexec)
      (s.dropAll (fds.drop capacity))

inductive Op
  | pipe2 (t : Nat) (cloexec : Bool)
  | socket (t : Nat) (stream cloexec : Bool)
  | socketpair (t : Nat) (cloexec : Bool)
  | listen (t : Nat) (n : Int)
  /-- The listener is the one the address leads to. -/
  | connect (t : Nat) (n : Int) (listener : Nat)
  /-- `connect` to the host. -/
  | bridge (t : Nat) (n : Int)
  | accept (t : Nat) (n : Int) (cloexec : Bool)
  /-- `dup`, and `F_DUPFD` with its lower bound. -/
  | dup (t : Nat) (n : Int) (low : Int) (cloexec : Bool)
  | dup2 (t : Nat) (old new : Int) (cloexec : Bool)
  | pidfdGetfd (t target : Nat) (n : Int)
  | close (t : Nat) (n : Int)
  | closeRange (t : Nat) (first last : Int) (unshare : Bool)
  | setCloexec (t : Nat) (first last : Int) (on : Bool)
  /-- A new task, of the caller's thread group or of a new one. -/
  | clone (t : Nat) (share : Bool) (tgid : Nat)
  | unshare (t : Nat)
  | exec (t : Nat)
  | exit (t : Nat)
  | exitGroup (t : Nat)
  | reap (t : Nat)
  /-- `sendmsg` with descriptors, to a connected pair. -/
  | send (t : Nat) (n : Int) (fds : List Int)
  | recv (t : Nat) (n : Int) (groups capacity : Nat) (cloexec fault : Bool)
  /-- `read`, `recvfrom` or `splice` that consumes `groups` groups. -/
  | discard (t : Nat) (n : Int) (groups : Nat)

def Table.range (t : Table) (first last : Int) : List Int :=
  (t.map (·.num)).filter fun n => first ≤ n && n ≤ last

def State.filesOf (s : State) (t : Nat) : Nat := (s.procs[t]?.map (·.files)).getD 0

/-- The socket end the descriptor `n` of task `p` names. -/
def State.sockOf (s : State) (p : Task) (n : Int) : Option (Nat × Bool) :=
  match (s.table p.files).get n with
  | some (.socket k far) => some (k, far)
  | _ => none

def State.step (s : State) : Op → Option State
  | .pipe2 t cloexec => (s.running t).map fun p => s.pipe2 p.files cloexec
  | .socket t stream cloexec => (s.running t).map fun p => s.socket p.files stream cloexec
  | .socketpair t cloexec => (s.running t).map fun p => s.socketpair p.files cloexec
  | .listen t n => do
    let p ← s.running t
    let (k, _) ← s.sockOf p n
    match s.socks[k]? with
    | some .idle => some (s.setSock k (.listener []))
    | _ => none
  | .connect t n l => do
    let p ← s.running t
    let (k, far) ← s.sockOf p n
    if far then none else s.connect k l
  | .bridge t n => do
    let p ← s.running t
    let (k, _) ← s.sockOf p n
    match s.socks[k]? with
    | some .idle => some (s.setSock k .plain)
    | _ => none
  | .accept t n cloexec => do
    let p ← s.running t
    let (l, _) ← s.sockOf p n
    match s.socks[l]? with
    | some (.listener (k :: b)) =>
      some ((s.setSock l (.listener b)).alloc p.files (.socket k true) 0 cloexec)
    | _ => none
  | .dup t n low cloexec => do
    let p ← s.running t
    let fd ← (s.table p.files).get n
    some ((s.retain fd).alloc p.files fd low cloexec)
  | .dup2 t old new cloexec => do
    let p ← s.running t
    let fd ← (s.table p.files).get old
    if old = new then some s
    else
      let s := (s.close p.files new).retain fd
      some (s.setTable p.files (⟨new, fd, cloexec⟩ :: s.table p.files))
  | .pidfdGetfd t target n => do
    let p ← s.running t
    let q ← s.running target
    let fd ← (s.table q.files).get n
    some ((s.retain fd).alloc p.files fd 0 true)
  | .close t n => (s.running t).map fun p => s.close p.files n
  | .closeRange t first last unshare => do
    let p ← s.running t
    let s := if unshare then s.unshare t p else s
    let f := s.filesOf t
    some (((s.table f).range first last).foldl (fun s n => s.close f n) s)
  | .setCloexec t first last on => (s.running t).map fun p =>
    s.setTable p.files ((s.table p.files).map fun e =>
      if first ≤ e.num && e.num ≤ last then { e with cloexec := on } else e)
  | .clone t share tgid => (s.running t).map fun p => s.clone p share tgid
  | .unshare t => (s.running t).map fun p => s.unshare t p
  | .exec t => (s.running t).map fun p =>
    (s.setTable p.files ((s.table p.files).filter (!·.cloexec))).dropAll
      (Table.fds ((s.table p.files).filter (·.cloexec)))
  | .exit t => (s.running t).map fun p => s.exitTask t p
  | .exitGroup t => (s.running t).map fun p => s.exitGroup t p
  | .reap t => do
    let p ← s.procs[t]?
    if p.zombie then some (s.reap t p) else none
  | .send t n nums => do
    let p ← s.running t
    let (k, far) ← s.sockOf p n
    let fds ← nums.mapM (s.table p.files).get
    let q ← s.queue k !far
    some ((s.retainAll fds).setQueue k (!far) (q ++ [fds]))
  | .recv t n groups capacity cloexec fault => do
    let p ← s.running t
    let (k, far) ← s.sockOf p n
    let q ← s.queue k far
    some ((s.setQueue k far (q.drop groups)).deliver p.files (q.take groups).flatten capacity
      cloexec fault)
  | .discard t n groups => do
    let p ← s.running t
    let (k, far) ← s.sockOf p n
    let q ← s.queue k far
    some ((s.setQueue k far (q.drop groups)).dropAll (q.take groups).flatten)

def State.init : State :=
  ⟨fun _ => 0, 0, [], [[⟨0, .other, false⟩, ⟨1, .other, false⟩, ⟨2, .other, false⟩]],
    [⟨0, 0, false⟩], []⟩

abbrev State.Reach (can : State → Op → Prop) : State → State → Prop := Run.Reach State.step can

def State.inUse (s : State) (f : Nat) : Bool := s.procs.any fun p => p.files = f && !p.zombie

/-- The references to an end: in tables of living tasks, in flight, and in backlogs. -/
def State.references (s : State) (e : Fd) : Nat :=
  (((List.range s.tables.length).filter s.inUse).map fun f => (s.table f).fds.count e).sum +
    (s.socks.flatMap Kind.inFlight).count e + (s.socks.flatMap Kind.backlog).count e

end NixVm.Fds
