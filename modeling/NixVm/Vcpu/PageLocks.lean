/-
The pages an address space has locked (`src/vcpu/pagelocks.rs`).

The source keeps disjoint `[start, end)` ranges in a `BTreeMap` from start to end. Here the map is
the list of its entries in key order, and the map's own operations are written on that list;
`insert` and `remove` are then the source's, step by step.
-/
import Mathlib

namespace NixVm

namespace RangeMap

/-- The last entry whose key satisfies `p`: `range(..).next_back()`. -/
def lastBelow (m : List (Nat × Nat)) (p : Nat → Bool) : Option (Nat × Nat) :=
  (m.filter fun r => p r.1).getLast?

def remove (m : List (Nat × Nat)) (k : Nat) : List (Nat × Nat) := m.filter fun r => r.1 != k

def insert (m : List (Nat × Nat)) (k v : Nat) : List (Nat × Nat) :=
  (m.filter fun r => r.1 < k) ++ (k, v) :: m.filter fun r => k < r.1

end RangeMap

structure PageLocks where
  ranges : List (Nat × Nat)
  pages : Nat
  future : Bool

namespace PageLocks

def default : PageLocks := ⟨[], 0, false⟩

def lockedWithin (l : PageLocks) (start stop : Nat) : Nat :=
  let n := match RangeMap.lastBelow l.ranges (· ≤ start) with
    | some (_, e) => min e stop - start
    | none => 0
  (l.ranges.filter fun r => start + 1 ≤ r.1 ∧ r.1 < stop).foldl
    (fun n r => n + (min r.2 stop - r.1)) n

def drop (l : PageLocks) (r : Nat × Nat) : PageLocks :=
  { l with ranges := RangeMap.remove l.ranges r.1, pages := l.pages - (r.2 - r.1) }

def add (l : PageLocks) (start stop : Nat) : PageLocks :=
  { l with ranges := RangeMap.insert l.ranges start stop, pages := l.pages + (stop - start) }

/-- Lock `[start, stop)`, absorbing every range that overlaps or touches it. -/
def insert (l : PageLocks) (start stop : Nat) : PageLocks :=
  if start ≥ stop then l
  else
    let (start, stop, l) := match RangeMap.lastBelow l.ranges (· ≤ start) with
      | some (s, e) => if e ≥ start then (s, max stop e, l.drop (s, e)) else (start, stop, l)
      | none => (start, stop, l)
    let touching := l.ranges.filter fun r => start ≤ r.1 ∧ r.1 ≤ stop
    let (stop, l) := touching.foldl (fun (stop, l) r => (max stop r.2, l.drop r)) (stop, l)
    l.add start stop

/-- Take `[start, stop)` out of the range `r`, keeping what sticks out on either side. -/
def cut (start stop : Nat) (l : PageLocks) (r : Nat × Nat) : PageLocks :=
  let l := l.drop r
  let l := if r.1 < start then l.add r.1 start else l
  if stop < r.2 then l.add stop r.2 else l

def remove (l : PageLocks) (start stop : Nat) : PageLocks :=
  if start ≥ stop then l
  else
    let before := match RangeMap.lastBelow l.ranges (· < start) with
      | some (s, e) => if start < e then [(s, e)] else []
      | none => []
    let hit := before ++ l.ranges.filter fun r => start ≤ r.1 ∧ r.1 < stop
    hit.foldl (cut start stop) l

def clear (_ : PageLocks) : PageLocks := default

def Locked (l : PageLocks) (p : Nat) : Prop := ∃ r ∈ l.ranges, r.1 ≤ p ∧ p < r.2

instance (l : PageLocks) (p : Nat) : Decidable (l.Locked p) :=
  inferInstanceAs (Decidable (∃ r ∈ l.ranges, r.1 ≤ p ∧ p < r.2))

end PageLocks

end NixVm
