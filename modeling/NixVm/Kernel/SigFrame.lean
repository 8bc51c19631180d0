/-
Delivery of caught signals with their siginfo and their frames (`deliver_pending_signals` and
`deliver_async_signal` in `src/kernel/signal.rs`, `take_siginfo` in `src/kernel/mod.rs`).

The task is that of `Kernel/Signal` with the siginfo of every signal, oldest first, in place of its
queue; a standard signal has one slot. `writable` says whether the stack takes the frame.
-/
import NixVm.Kernel.Signal

namespace NixVm.Signal

/-- What `push_sigframe` builds, and the handler it sends the task to. -/
structure Frame (α : Type) where
  sig : Nat
  info : Option α
  restore : SigSet
  handler : Nat

structure Framed (α : Type) where
  task : Task
  infos : Nat → List α
  frames : List (Frame α)

variable {α : Type}

def Framed.setInfos (p : Framed α) (sig : Nat) (q : List α) : Framed α :=
  { p with infos := fun n => if n = sig then q else p.infos n }

def Framed.drainRt (p : Framed α) (sig : Nat) : Framed α :=
  if sigrtmin ≤ sig then p.setInfos sig [] else p

def Task.enterHandlerMask (t : Task) (sig : Nat) : Task :=
  let act := t.handlers sig
  { t with
    blocked := t.blocked ||| act.mask ||| (if act.nodefer then 0#64 else bit sig)
    handlers := if act.resethand then
      fun n => if n = sig then .default else t.handlers n else t.handlers }

/-- The mask and the siginfo are taken before the frame is written. -/
def Framed.deliverAsync (writable : Bool) (sig : Nat) (p : Framed α) : Framed α :=
  let restore := p.task.sigsuspendPrev.getD p.task.blocked
  let rest := if sigrtmin ≤ sig then (p.infos sig).tail else []
  let t := { p.task with
    sigsuspendPrev := none
    pending := if rest.isEmpty then p.task.pending else p.task.pending ||| bit sig }
  let taken := { p.setInfos sig rest with task := t }
  if writable then
    { taken with
      task := t.enterHandlerMask sig
      frames := ⟨sig, (p.infos sig).head?, restore, (t.handlers sig).handler⟩ :: p.frames }
  else taken

/-- The loop over the deliverable signals `d`. -/
def Framed.deliverFrom (writable : Bool) (d : SigSet) : List Nat → Framed α → Framed α
  | [], p =>
    match p.task.sigsuspendPrev with
    | none => p
    | some prev => { p with task := { p.task with blocked := prev, sigsuspendPrev := none } }
  | sig :: rest, p =>
    if !has d sig then Framed.deliverFrom writable d rest p
    else
      let t := { p.task with pending := p.task.pending &&& ~~~bit sig }
      let p := { p with task := t }
      let handler := (t.handlers sig).handler
      if sig = sigstop ∨ isStopSignal sig = true ∧ handler = sigDfl then
        { p with task := { t with run := .stopped sig, pending := t.pending &&& ~~~bit sigcont } }
      else if handler = sigIgn then Framed.deliverFrom writable d rest (p.drainRt sig)
      else if handler ≠ sigDfl then p.deliverAsync writable sig
      else if isDefaultIgnored sig then Framed.deliverFrom writable d rest (p.drainRt sig)
      else { p with task := { t with run := .zombie sig } }

def Framed.deliver (writable : Bool) (p : Framed α) : Framed α :=
  match p.task.run with
  | .running =>
    Framed.deliverFrom writable (p.task.pending &&& ~~~p.task.blocked) (List.range' 1 nsig) p
  | _ => p

end NixVm.Signal
