/-
The signals of one task (`src/kernel/signal.rs`): its masks and dispositions.

A set of signals is a 64-bit mask in which signal `n` is bit `n - 1`.
-/
import NixVm.Kernel.Errno

namespace NixVm.Signal

abbrev SigSet := BitVec 64

def bit (sig : Nat) : SigSet := 1#64 <<< (sig - 1)

def has (m : SigSet) (sig : Nat) : Bool := m.getLsbD (sig - 1)

def nsig : Nat := 64
def sigchld : Nat := 17
def sigcont : Nat := 18
def sigstop : Nat := 19
def sigtstp : Nat := 20
def sigttin : Nat := 21
def sigttou : Nat := 22
def sigurg : Nat := 23
def sigwinch : Nat := 28
def sigrtmin : Nat := 32

def sigDfl : Nat := 0
def sigIgn : Nat := 1

def isStopSignal (sig : Nat) : Bool :=
  sig = sigstop || sig = sigtstp || sig = sigttin || sig = sigttou

def isDefaultIgnored (sig : Nat) : Bool :=
  sig = sigchld || sig = sigcont || sig = sigurg || sig = sigwinch

/-- A disposition, with the two flags delivery looks at. -/
structure SigAction where
  handler : Nat
  nodefer : Bool
  resethand : Bool
  mask : SigSet

def SigAction.default : SigAction := ⟨sigDfl, false, false, 0#64⟩

inductive RunState
  | running
  | stopped (sig : Nat)
  | zombie (sig : Nat)
  deriving DecidableEq

structure Task where
  pending : SigSet
  blocked : SigSet
  handlers : Nat → SigAction
  run : RunState
  parked : Bool
  /-- The mask to come back to after `rt_sigsuspend` or a poll with a mask. -/
  sigsuspendPrev : Option SigSet
  /-- The real-time signals queued, oldest first. -/
  rtQueue : List Nat
  /-- A stand-in for a task that another worker is servicing. -/
  inFlight : Bool

def Task.init : Task := ⟨0#64, 0#64, fun _ => .default, .running, false, none, [], false⟩

end NixVm.Signal
