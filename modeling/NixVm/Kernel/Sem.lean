/-
System V semaphores (`src/kernel/ipc.rs`: `sys_semtimedop`, `SETVAL` and `SETALL` of `sys_semctl`,
`exit_group`).

Adjustments are `i32` and wrap, as in a release build. Whether the caller has permission and
whether the deadline has passed come with each call.
-/
import NixVm.Kernel.Errno

namespace NixVm.Sem

def semvmx : Int := 32767

def semopm : Nat := 500

/-- `struct sembuf`. -/
structure SemBuf where
  num : BitVec 16
  op : BitVec 16
  flg : BitVec 16

def SemBuf.undo (o : SemBuf) : Bool := o.flg &&& 0o10000#16 ≠ 0#16

def SemBuf.nowait (o : SemBuf) : Bool := o.flg &&& 0o4000#16 ≠ 0#16

/-- What stops a batch: a value above the limit, or an operation that has to wait. -/
inductive Stop
  | range
  | wait (o : SemBuf)

def SemBuf.apply (vals : List Int) (o : SemBuf) : Except Stop (List Int) :=
  let n := o.num.toNat
  let v := vals.getD n 0
  let op := o.op.toInt
  if 0 < op then
    if semvmx < v + op then .error .range else .ok (vals.set n (v + op))
  else if op < 0 then
    if -op ≤ v then .ok (vals.set n (v + op)) else .error (.wait o)
  else if v ≠ 0 then .error (.wait o)
  else .ok vals

abbrev Adjust := Nat → Nat → Nat → Option Int

structure Ipc where
  sem : Nat → Option (List Int)
  semadj : Adjust
  /-- `ipc_gone`: `EIDRM` for what was removed, else `EINVAL`. -/
  gone : Nat → Errno

/-- Arithmetic of `i32`. -/
def wrap (x : Int) : Int := x.bmod (2 ^ 32)

def Adjust.note (tgid id : Nat) (adj : Adjust) (o : SemBuf) : Adjust :=
  if o.undo ∧ o.op ≠ 0#16 then fun t i n =>
    if t = tgid ∧ i = id ∧ n = o.num.toNat then some (wrap ((adj t i n).getD 0 - o.op.toInt))
    else adj t i n
  else adj

inductive Reply
  | done
  | blocks
  | error (e : Errno)
  deriving DecidableEq

def Ipc.setVals (s : Ipc) (id : Nat) (vals : List Int) (semadj : Adjust) : Ipc :=
  ⟨fun i => if i = id then some vals else s.sem i, semadj, s.gone⟩

def Ipc.semtimedop (s : Ipc) (tgid id : Nat) (ops : List SemBuf) (allowed late : Bool) :
    Reply × Ipc :=
  if ops = [] then (.error .einval, s)
  else if semopm < ops.length then (.error .e2big, s)
  else match s.sem id with
  | none => (.error (s.gone id), s)
  | some vals =>
    if !allowed then (.error .eacces, s)
    else if ops.any fun o => vals.length ≤ o.num.toNat then (.error .efbig, s)
    else match ops.foldlM SemBuf.apply vals with
    | .error .range => (.error .erange, s)
    | .error (.wait o) => (if o.nowait || late then .error .eagain else .blocks, s)
    | .ok vals => (.done, s.setVals id vals (ops.foldl (Adjust.note tgid id) s.semadj))

def Adjust.clear (adj : Adjust) (id : Nat) (p : Nat → Bool) : Adjust := fun t i n =>
  if i = id ∧ p n then none else adj t i n

def Ipc.setval (s : Ipc) (id num : Nat) (v : Int) (allowed : Bool) : Reply × Ipc :=
  match s.sem id with
  | none => (.error (s.gone id), s)
  | some vals =>
    if vals.length ≤ num then (.error .einval, s)
    else if !allowed then (.error .eacces, s)
    else if v < 0 ∨ semvmx < v then (.error .erange, s)
    else (.done, s.setVals id (vals.set num v) (s.semadj.clear id (· = num)))

/-- `raw` has the values as they are read, one for each semaphore. -/
def Ipc.setall (s : Ipc) (id : Nat) (raw : Nat → BitVec 16) (allowed : Bool) : Reply × Ipc :=
  match s.sem id with
  | none => (.error (s.gone id), s)
  | some vals =>
    let new := (List.range vals.length).map fun i => ((raw i).toNat : Int)
    if !allowed then (.error .eacces, s)
    else if new.any fun v => semvmx < v then (.error .erange, s)
    else (.done, s.setVals id new (s.semadj.clear id fun _ => true))

def clamp (v : Int) : Int := max 0 (min v semvmx)

def Ipc.exitGroup (s : Ipc) (tgid : Nat) : Ipc where
  sem id := (s.sem id).map fun vals => vals.mapIdx fun n v =>
    (s.semadj tgid id n).elim v fun adj => clamp (wrap (v + adj))
  semadj t i n := if t = tgid then none else s.semadj t i n
  gone := s.gone

inductive Op
  | semop (tgid id : Nat) (ops : List SemBuf) (allowed late : Bool)
  | setval (id num : Nat) (v : Int) (allowed : Bool)
  | setall (id : Nat) (raw : Nat → BitVec 16) (allowed : Bool)
  | exit (tgid : Nat)

def Ipc.step (s : Ipc) : Op → Reply × Ipc
  | .semop tgid id ops allowed late => s.semtimedop tgid id ops allowed late
  | .setval id num v allowed => s.setval id num v allowed
  | .setall id raw allowed => s.setall id raw allowed
  | .exit tgid => (.done, s.exitGroup tgid)

end NixVm.Sem
