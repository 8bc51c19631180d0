/-
The serial scheduler (`src/kernel/mod.rs`: `pick_serial_runnable`, `admit_fair`,
`charge_vruntime`).

The weight of a nice value, which the source computes in floating point, is a parameter.
-/
import Mathlib

namespace NixVm.Fair

def saturate (n : Nat) : Nat := min n (2 ^ 128 - 1)

structure Task where
  running : Bool
  parked : Bool
  held : Bool
  hasVcpu : Bool
  wakeDeadline : Option Nat
  timerDeadline : Option Nat
  nice : Int
  vruntime : Nat

def Task.expire (now : Nat) (t : Task) : Task :=
  if t.parked && (t.wakeDeadline.any (· ≤ now) || t.timerDeadline.any (· ≤ now)) then
    { t with parked := false }
  else t

def Task.runnable (t : Task) : Bool := t.running && !t.parked && !t.held && t.hasVcpu

def chargeVruntime (weight : Int → Nat) (delta : Nat) (t : Task) : Task :=
  { t with vruntime := saturate (t.vruntime + saturate (delta * 1024) / weight t.nice) }

structure Sched where
  procs : List (Option Task)
  minVruntime : Nat

namespace Sched

def task (s : Sched) (i : Nat) : Option Task := s.procs[i]?.join

def vruntime (s : Sched) (i : Nat) : Nat := (s.task i).elim 0 Task.vruntime

def expire (now : Nat) (s : Sched) : Sched :=
  { s with procs := s.procs.map (·.map (·.expire now)) }

def admitFair (s : Sched) (i : Nat) : Sched where
  procs := s.procs.modify i
    (·.map fun t => { t with vruntime := max t.vruntime s.minVruntime })
  minVruntime := max (s.vruntime i) s.minVruntime

/-- The first runnable task with the least runtime, none counted below the floor. -/
def best (s : Sched) : Option Nat :=
  ((List.range s.procs.length).filter fun i => (s.task i).any Task.runnable).argmin
    fun i => max (s.vruntime i) s.minVruntime

def pickSerialRunnable (now : Nat) (s : Sched) : Option Nat × Sched :=
  let s := s.expire now
  (s.best, s.best.elim s s.admitFair)

end Sched

end NixVm.Fair
