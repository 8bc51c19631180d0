/-
POSIX timers (`src/kernel/ptimer.rs`: `fire_ptimers`).

The signals of the task are any type with the two things that are done to them: asking whether a
timer's signal is still queued, and `raise_with`, which posts one unless it is discarded and says
which.
-/
import Mathlib

namespace NixVm.Ptimer

def i32Max : Nat := 2 ^ 31 - 1

def saturatingAdd (a b : Nat) : Nat := min (a + b) i32Max

structure PosixTimer where
  id : Nat
  /-- `SIGEV_NONE`. -/
  silent : Bool
  signo : Nat
  value : Nat
  deadline : Option Nat
  interval : Nat
  overrunLast : Nat
  overrunPending : Nat

structure QueuedSig where
  pid : Nat
  overrun : Nat
  value : Nat

structure Signals (ι : Type) where
  queued : ι → PosixTimer → Bool
  raiseWith : ι → Nat → QueuedSig → ι × Bool

structure ProcInfo (ι : Type) where
  signals : ι
  parked : Bool

/-- The expirations up to `now` of a timer due at `dl`, and its next deadline. -/
def PosixTimer.expired (t : PosixTimer) (dl now : Nat) : Nat × Option Nat :=
  if t.interval = 0 then (1, none)
  else
    let missed := (now - dl) / t.interval
    (missed + 1, some (dl + (missed + 1) * t.interval))

/-- One turn of the loop: the timer, and the signal raised. -/
def PosixTimer.fire (t : PosixTimer) (now : Nat) (queued : Bool) : PosixTimer × Option QueuedSig :=
  match t.deadline with
  | none => (t, none)
  | some dl =>
    if now < dl then (t, none)
    else
      let (count, next) := t.expired dl now
      let count := min count i32Max
      let t := { t with deadline := next }
      if t.silent then (t, none)
      else if queued then
        ({ t with overrunPending := saturatingAdd t.overrunPending count }, none)
      else
        let overrun := saturatingAdd t.overrunPending (count - 1)
        ({ t with overrunLast := overrun, overrunPending := 0 }, some ⟨t.id, overrun, t.value⟩)

/-- Each timer as it was, whether its signal was queued, and what became of it. -/
structure Turn where
  before : PosixTimer
  queued : Bool
  after : PosixTimer
  /-- The signal handed to `raise_with`, and whether it was posted. -/
  raised : Option (QueuedSig × Bool)

variable {ι : Type} (sig : Signals ι)

/-- `raise_with`, and the wake-up of the task when the signal was posted. -/
def ProcInfo.raiseWith (info : ProcInfo ι) (signo : Nat) (qs : QueuedSig) : ProcInfo ι × Bool :=
  let (signals, raised) := sig.raiseWith info.signals signo qs
  (⟨signals, info.parked && !raised⟩, raised)

def firePtimers (now : Nat) : List PosixTimer → ProcInfo ι → List Turn × ProcInfo ι
  | [], info => ([], info)
  | t :: ts, info =>
    let queued := !t.silent && sig.queued info.signals t
    match t.fire now queued with
    | (after, none) =>
      let rest := firePtimers now ts info
      (⟨t, queued, after, none⟩ :: rest.1, rest.2)
    | (after, some qs) =>
      let (info, raised) := info.raiseWith sig t.signo qs
      let rest := firePtimers now ts info
      (⟨t, queued, after, some (qs, raised)⟩ :: rest.1, rest.2)

end NixVm.Ptimer
