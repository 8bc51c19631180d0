/-
A limit on what the guest may use of the host (`src/limits.rs`).

The counter is a `u64` of bytes the host really holds, so that it does not get anywhere near its
end; giving back more than was charged stops at 0.
-/
import Mathlib

namespace NixVm

structure Quota where
  limit : Nat
  used : Nat
  deriving DecidableEq, Repr

namespace Quota

def tryCharge (q : Quota) (bytes : Nat) : Option Quota :=
  if q.used + bytes ≤ q.limit then some { q with used := q.used + bytes } else none

def forceCharge (q : Quota) (bytes : Nat) : Quota := { q with used := q.used + bytes }

def release (q : Quota) (bytes : Nat) : Quota := { q with used := q.used - bytes }

lemma tryCharge_eq_some {q q' : Quota} {n : Nat} (h : q.tryCharge n = some q') :
    q' = { q with used := q.used + n } := by
  unfold tryCharge at h
  split at h
  · cases h; rfl
  · cases h

end Quota

end NixVm
