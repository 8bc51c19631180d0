/-
Edge-triggered `epoll` reports what arrived, if it arrived on a descriptor that was drained and
looked at before.

An edge is a level that differs from the one of the last scan. The invariant says of every watch
whose descriptor has data not yet reported that its last level was below (`Behind`): not readable,
or for a counter a smaller count.
-/
import NixVm.Kernel.Poll

namespace NixVm.Poll

open Epoll List Option

variable {w w' : Watch} {f : File} {fd n room writable : Nat} {ws : List Watch}
  {files : Nat → Option File} {s s' : Epoll}

/-- `EPOLLIN`. -/
def Watch.input (w : Watch) : Bool := w.events.getLsbD 0

/-- The last scan found less than is there now. -/
def Watch.Behind (w : Watch) : File → Prop
  | .eventfd count _ => w.lastLevel < count
  | _ => w.lastLevel % 2 = 0

lemma bit_getLsbD (b : Bool) (m : BitVec 32) : (bit b m).getLsbD 0 = (b && m.getLsbD 0) := by
  cases b <;> simp [bit]

lemma File.ready_of_amount (h : 0 < f.amount) : f.ready.getLsbD 0 = true := by
  cases f with
  | pipe len writers =>
    have hlen : 0 < len := h
    simp [File.ready, hlen]
  | socket len ended room peerClosed =>
    have hlen : 0 < len := h
    simp [File.ready, bit_getLsbD, hlen]
  | eventfd count semaphore =>
    have hcount : 0 < count := h
    simp [File.ready, bit_getLsbD, hcount]

lemma Watch.readiness_getLsbD (hin : w.input = true) (h : 0 < f.amount) :
    (w.readiness (some f)).getLsbD 0 = true := by
  unfold Watch.input at hin
  simp [Watch.readiness, File.ready_of_amount h, hin]

lemma Watch.Behind.delivers (hb : w.Behind f) (hin : w.input = true) (h : 0 < f.amount) :
    w.delivers (some f) = true := by
  have hbit := Watch.readiness_getLsbD hin h
  have hne : w.readiness (some f) ≠ 0 := by
    intro hzero
    rw [hzero] at hbit
    simp at hbit
  have hodd : (w.readiness (some f)).toNat % 2 = 1 := by
    simpa [BitVec.getLsbD, Nat.testBit_zero] using hbit
  have hlevel : w.level (some f) ≠ w.lastLevel := by
    cases f with
    | pipe len writers | socket len ended room peerClosed =>
      have hb : w.lastLevel % 2 = 0 := hb
      show (w.readiness _).toNat ≠ _
      omega
    | eventfd count semaphore =>
      have hb : w.lastLevel < count := hb
      show count ≠ _
      omega
  simp only [Watch.delivers, ne_eq, hne, hlevel, not_false_eq_true, decide_true, Bool.or_true,
    Bool.and_true]

/-- Data that was not reported is there, and every watch for it is behind. -/
structure Epoll.Caught (s : Epoll) : Prop where
  there : ∀ fd, 0 < s.fresh fd → ∃ f, s.files fd = some f ∧ s.fresh fd ≤ f.amount
  behind : ∀ w ∈ s.watches, w.input = true → 0 < s.fresh w.fd →
    ∀ f, s.files w.fd = some f → w.Behind f

end NixVm.Poll
