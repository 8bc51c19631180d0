/-
Timer expirations are neither lost nor counted twice.

A history is a list of firings, each at a time no earlier than the last and with whatever the
task's signals are by then. Every timer is followed with what was raised for it.
-/
import NixVm.Kernel.Ptimer
import NixVm.Lib.Run

namespace NixVm.Ptimer

/-- A firing of the timer clips none of its counters. -/
def Turn.Unclipped (r : Turn) (now : Nat) : Prop := ∀ dl, r.before.deadline = some dl →
  (r.before.expired dl now).1 ≤ i32Max ∧ r.before.overrunPending +
    (if r.queued then (r.before.expired dl now).1 else (r.before.expired dl now).1 - 1) ≤ i32Max

structure Logged where
  timer : PosixTimer
  /-- What was handed to `raise_with` for the timer, and whether it was posted. -/
  raised : List (QueuedSig × Bool)
  /-- No counter has saturated. -/
  unclipped : Prop

def Logged.next (l : Logged) (now : Nat) (r : Turn) : Logged :=
  ⟨r.after, l.raised ++ r.raised.toList, l.unclipped ∧ r.Unclipped now⟩

variable {ι : Type} {sig : Signals ι}

structure Clock (ι : Type) where
  now : Nat
  timers : List Logged
  info : ProcInfo ι

/-- Fire at a time, with what the task has made of its signals by then. -/
def Clock.step (sig : Signals ι) (s : Clock ι) (op : Nat × ProcInfo ι) : Option (Clock ι) :=
  let (turns, info) := firePtimers sig op.1 (s.timers.map (·.timer)) op.2
  some ⟨op.1, List.zipWith (·.next op.1) s.timers turns, info⟩

/-- The signal of a turn, with its number. -/
def Turn.signal (r : Turn) : Option (Nat × QueuedSig × Bool) :=
  r.raised.map (r.before.signo, ·)

/-- The expirations that the signals account for. -/
def Logged.reported (l : Logged) : Nat :=
  (l.raised.map fun r => 1 + r.1.overrun).sum + l.timer.overrunPending

/-- Due at `d` and then every `p`: of these times `k` are over, and accounted for. -/
structure Logged.Follows (l : Logged) (d p now k : Nat) : Prop where
  period : l.timer.interval = p
  deadline : l.timer.deadline = some (d + k * p)
  past : ∀ j < k, d + j * p ≤ now
  counted : l.timer.silent = false → l.unclipped → l.reported = k

lemma Logged.Follows.next {l : Logged} {d p now now' k : Nat} (h : l.Follows d p now k)
    (hp : 0 < p) (hle : now ≤ now') (q : Bool) {r : Option (QueuedSig × Bool)}
    (hr : r.map Prod.fst = (l.timer.fire now' q).2) :
    let l' := l.next now' ⟨l.timer, q, (l.timer.fire now' q).1, r⟩
    ∃ k', l'.Follows d p now' k' ∧ now' < d + k' * p := by
  obtain ⟨hper, hdl, hpast, hcount⟩ := h
  by_cases hearly : now' < d + k * p
  · have hfire : l.timer.fire now' q = (l.timer, none) := by
      simp only [PosixTimer.fire, hdl, if_pos hearly]
    rw [hfire] at hr ⊢
    cases Option.map_eq_none_iff.mp hr
    refine ⟨k, ⟨hper, hdl, fun j hj => (hpast j hj).trans hle, fun hs hu => ?_⟩, hearly⟩
    rw [← hcount hs hu.1]
    simp [reported, Logged.next]
  -- the expirations since the deadline
  obtain ⟨m, hm⟩ : ∃ m, (now' - (d + k * p)) / p = m := ⟨_, rfl⟩
  have hexp : l.timer.expired (d + k * p) now' = (m + 1, some (d + (k + (m + 1)) * p)) := by
    rw [PosixTimer.expired, hper, if_neg hp.ne', hm, Nat.add_mul k, ← add_assoc]
  have hmul := Nat.div_mul_le_self (now' - (d + k * p)) p
  have hlt := Nat.lt_div_mul_add hp (a := now' - (d + k * p))
  rw [hm] at hmul hlt
  have hnext : now' < d + (k + (m + 1)) * p := by
    rw [Nat.add_mul, Nat.add_mul m]
    omega
  have hpast' : ∀ j < k + (m + 1), d + j * p ≤ now' := by
    intro j hj
    have := Nat.mul_le_mul_right p (show j ≤ k + m by omega)
    rw [Nat.add_mul] at this
    omega
  refine ⟨k + (m + 1), ?_, hnext⟩
  unfold PosixTimer.fire at hr ⊢
  unfold Logged.next
  simp only [hdl, if_neg hearly, hexp] at hr ⊢
  cases hs : l.timer.silent with
  | true => exact ⟨hper, rfl, hpast', fun hl => nomatch hl⟩
  | false =>
    cases q with
    | true =>
      refine ⟨hper, rfl, hpast', fun _ hu => ?_⟩
      obtain ⟨h1, h2⟩ := hu.2 _ hdl
      simp only [hexp, if_true] at h1 h2
      simp only [hs, Bool.false_eq_true, if_false, if_true, Option.map_eq_none_iff] at hr
      subst hr
      rw [← hcount hs hu.1]
      simp only [reported, saturatingAdd, min_eq_left h1, min_eq_left h2, if_true,
        Bool.false_eq_true, if_false, Option.toList_none, List.append_nil, add_assoc]
    | false =>
      refine ⟨hper, rfl, hpast', fun _ hu => ?_⟩
      obtain ⟨h1, h2⟩ := hu.2 _ hdl
      simp only [hexp, Bool.false_eq_true, if_false] at h1 h2
      simp only [hs, Bool.false_eq_true, if_false, Option.map_eq_some_iff] at hr
      obtain ⟨⟨qs, posted⟩, rfl, rfl⟩ := hr
      rw [← hcount hs hu.1]
      simp only [reported, saturatingAdd, min_eq_left h1, min_eq_left h2,
        Bool.false_eq_true, if_false, Option.toList_some, List.map_append, List.sum_append,
        List.map_cons, List.map_nil, List.sum_singleton]
      clear h1 h2 hu
      omega

variable {s s' : Clock ι} {op : Nat × ProcInfo ι} {i d p : Nat}

end NixVm.Ptimer
