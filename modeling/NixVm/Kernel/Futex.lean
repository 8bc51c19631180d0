/-
Priority-inheriting futexes (`src/kernel/futex.rs`), which are locks that the unlocker hands to a
waiter.

A lock is a word of guest memory with the owner's tid in it. It may be unmapped at any time, so a
write of it can fail; what was set before stays set.

`call` is the call a task is parked in, or will make again once a signal handler has run
(`handler`), and `holds` who was told that it has a lock and has not given it up since. None of
them is a field of the source.
-/
import NixVm.Lib.Run

namespace NixVm.Futex

/-- A lock word: the low 30 bits, and the bits 31 and 30. -/
structure Word where
  owner : Nat
  waiters : Bool
  died : Bool
  deriving DecidableEq, Repr

def Word.free : Word := ⟨0, false, false⟩

inductive Call
  | lockPi (key : Nat)
  | wait
  deriving DecidableEq, Repr

structure Task where
  alive : Bool
  /-- `futex_wait`, `futex_pi` and `futex_woken`. -/
  wait : Option Nat
  pi : Bool
  woken : Bool
  call : Option Call
  handler : Bool
  deriving DecidableEq, Repr

def Task.idle : Task := ⟨true, none, false, false, none, false⟩

structure Sys where
  /-- The tids in the table of processes, in its order. -/
  table : List Nat
  tasks : Nat → Task
  words : Nat → Word
  holds : Nat → Nat → Bool

def Sys.init (table : List Nat) : Sys :=
  ⟨table, fun _ => .idle, fun _ => .free, fun _ _ => false⟩

namespace Sys

def live (s : Sys) (t : Nat) : Bool := s.table.contains t && (s.tasks t).alive

def setTask (s : Sys) (t : Nat) (u : Task) : Sys :=
  { s with tasks := fun v => if v = t then u else s.tasks v }

def setWord (s : Sys) (k : Nat) (w : Word) : Sys :=
  { s with words := fun l => if l = k then w else s.words l }

def setHolds (s : Sys) (t k : Nat) (b : Bool) : Sys :=
  { s with holds := fun v l => if v = t ∧ l = k then b else s.holds v l }

/-- `futex_done`, and back to user space. -/
def done (s : Sys) (t : Nat) : Sys := s.setTask t { (s.tasks t) with
  wait := none, pi := false, woken := false, call := none, handler := false }

/-- Back to user space without `futex_done`. -/
def returned (s : Sys) (t : Nat) : Sys :=
  s.setTask t { (s.tasks t) with call := none, handler := false }

/-- Whether a task waits for the lock and has not been handed it. -/
def waiting (s : Sys) (k t : Nat) : Bool :=
  (s.tasks t).pi && (s.tasks t).wait = some k && !(s.tasks t).woken

/-- The lock is the caller's: it returns 0. -/
def acquired (s : Sys) (t k : Nat) (w : Word) : Sys :=
  ((s.done t).setWord k w).setHolds t k true

/-- How a call of `FUTEX_LOCK_PI` that has to wait goes on. -/
inductive Patience
  /-- `FUTEX_TRYLOCK_PI`. -/
  | try
  /-- The deadline has passed. -/
  | expired
  /-- A handled signal is pending and does not restart the call. -/
  | interrupted
  /-- A handler runs, and then the call is made again (`SA_RESTART`). -/
  | restart
  /-- It parks. -/
  | wait
  /-- The timeout cannot be read, or is none. -/
  | badTimeout
  /-- The word cannot be written. -/
  | fault
  deriving DecidableEq, Repr

/-- `futex_lock_pi`, the first time or again. -/
def lockPi (s : Sys) (t k : Nat) (p : Patience) : Sys :=
  if (s.tasks t).woken then
    -- the unlocker already wrote our tid into the word
    s.acquired t k (s.words k)
  else
    let word := s.words k
    let left := s.table.any fun u => u ≠ t && s.waiting k u
    let take (w : Word) := if p = .fault then s.done t else s.acquired t k w
    if word.owner = 0 then take ⟨t, left, false⟩
    else if word.owner = t then s.done t
    else if !s.live word.owner then take ⟨t, left, true⟩
    else
      let marked := s.setWord k { word with waiters := true }
      match p with
      | .try | .badTimeout | .fault => s.returned t
      | .expired => s.done t
      | .interrupted => marked.done t
      | .restart => marked.setTask t
          { (s.tasks t) with wait := some k, pi := true, call := some (.lockPi k), handler := true }
      | .wait => marked.setTask t
          { (s.tasks t) with wait := some k, pi := true, call := some (.lockPi k), handler := false }

/-- `futex_unlock_pi`: hand the lock to the first that waits; `writes`: the word can be written. -/
def unlockPi (s : Sys) (t k : Nat) (writes : Bool) : Sys :=
  if (s.words k).owner ≠ t then s
  else
    match s.table.filter fun u => s.waiting k u with
    | [] => if writes then (s.setWord k .free).setHolds t k false else s
    | u :: rest =>
      let s' := s.setTask u { (s.tasks u) with woken := true }
      if writes then (s'.setWord k ⟨u, rest ≠ [], false⟩).setHolds t k false else s'

/-- The same when the first that waits is a stand-in, its task `u` being served on another CPU: the
flag is gone once that task is checked in. -/
def unlockStandIn (s : Sys) (t k u : Nat) (more : Bool) : Sys :=
  if (s.words k).owner ≠ t then s else (s.setWord k ⟨u, more, false⟩).setHolds t k false

/-- `futex_wake_key` over the table. -/
def wakeKey (k : Nat) : Nat → List Nat → (Nat → Task) → Nat → Task
  | _, [], ts => ts
  | 0, _, ts => ts
  | n + 1, t :: rest, ts =>
    if (ts t).woken || (ts t).pi || (ts t).wait ≠ some k then wakeKey k (n + 1) rest ts
    else wakeKey k n rest fun v => if v = t then { (ts t) with woken := true } else ts v

/-- `futex_requeue_keys` over the table. -/
def requeueKeys (source target : Nat) : Nat → Nat → List Nat → (Nat → Task) → Nat → Task
  | _, _, [], ts => ts
  | wake, move, t :: rest, ts =>
    if (ts t).wait ≠ some source || (ts t).woken then requeueKeys source target wake move rest ts
    else
      match wake, move with
      | wake + 1, move => requeueKeys source target wake move rest
          fun v => if v = t then { (ts t) with woken := true } else ts v
      | 0, move + 1 => requeueKeys source target 0 move rest
          fun v => if v = t then { (ts t) with wait := some target } else ts v
      | 0, 0 => ts

end Sys

inductive Op
  /-- User space exchanges 0 for its tid, or its tid for 0. -/
  | fastLock (t k : Nat)
  | fastUnlock (t k : Nat)
  | lockPi (t k : Nat) (p : Sys.Patience)
  /-- A wake-up, for whatever reason, of a task parked in a `FUTEX_LOCK_PI`, or the return of the
  handler that interrupted it. -/
  | again (t : Nat) (p : Sys.Patience)
  | unlockPi (t k : Nat) (writes : Bool)
  | unlockStandIn (t k u : Nat) (more : Bool)
  /-- `FUTEX_WAIT` parks. -/
  | wait (t k : Nat)
  /-- And returns, woken, timed out, interrupted or because the word changed. -/
  | waited (t : Nat)
  | wake (k n : Nat)
  /-- `FUTEX_REQUEUE`, or `FUTEX_CMP_REQUEUE` that found its value. -/
  | requeue (source target wake move : Nat)
  | exit (t : Nat)

/-- In user space, in a handler or not. -/
def Sys.running (s : Sys) (t : Nat) : Bool :=
  s.live t && ((s.tasks t).call = none || (s.tasks t).handler)

def Sys.step (s : Sys) : Op → Option Sys
  | .fastLock t k =>
    if s.running t ∧ s.words k = .free then
      some ((s.setWord k ⟨t, false, false⟩).setHolds t k true)
    else none
  | .fastUnlock t k =>
    if s.running t ∧ s.words k = ⟨t, false, false⟩ then
      some ((s.setWord k .free).setHolds t k false)
    else none
  | .lockPi t k p => if s.running t then some (s.lockPi t k p) else none
  | .again t p =>
    match (s.tasks t).call with
    -- a `FUTEX_TRYLOCK_PI` is never made again
    | some (.lockPi k) => if s.live t ∧ p ≠ .try then some (s.lockPi t k p) else none
    | _ => none
  | .unlockPi t k writes => if s.running t then some (s.unlockPi t k writes) else none
  | .unlockStandIn t k u more => if s.running t then some (s.unlockStandIn t k u more) else none
  | .wait t k =>
    if s.running t then
      some (s.setTask t { (s.tasks t) with wait := some k, call := some .wait })
    else none
  | .waited t => if s.live t ∧ (s.tasks t).call = some .wait then some (s.done t) else none
  | .wake k n => some { s with tasks := Sys.wakeKey k n s.table s.tasks }
  | .requeue source target wake move =>
    some { s with tasks := Sys.requeueKeys source target wake move s.table s.tasks }
  | .exit t =>
    if s.live t then
      some { s.setTask t { (s.tasks t) with alive := false } with
        holds := fun v l => if v = t then false else s.holds v l }
    else none

end NixVm.Futex
