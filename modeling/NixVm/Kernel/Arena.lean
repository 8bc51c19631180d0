/-
The allocator of `mmap` addresses (`Arena` of `src/kernel/mod.rs`).

An arena hands out ranges of `[floor, top)` from the top down. Below the cursor nothing was handed
out yet; what was given back above it is on the free list.
-/
import NixVm.Lib.Ranges

namespace NixVm

open Ranges (Range)

structure Arena where
  cursor : Nat
  floor : Nat
  top : Nat
  free : List Range
  deriving DecidableEq, Repr

namespace Arena

def new (top floor : Nat) : Arena := ⟨top, floor, top, []⟩

/-- The first free range that is long enough gives up its high end. -/
def takeFit (len : Nat) : List Range → Option (Nat × List Range)
  | [] => none
  | (addr, flen) :: rest =>
    if len ≤ flen then
      some (addr + (flen - len), if flen = len then rest else (addr, flen - len) :: rest)
    else (takeFit len rest).map fun (p, rest) => (p, (addr, flen) :: rest)

def alloc (a : Arena) (len : Nat) : Option (Nat × Arena) :=
  match takeFit len a.free with
  | some (p, free) => some (p, { a with free := free })
  | none =>
    if a.cursor < len ∨ a.cursor - len < a.floor then none
    else some (a.cursor - len, { a with cursor := a.cursor - len })

def isFree (a : Arena) (addr len : Nat) : Bool :=
  addr + len < 2 ^ 64 && a.free.any fun r => r.1 ≤ addr && addr + len ≤ r.1 + r.2

def claim (a : Arena) (addr len : Nat) : Arena :=
  let stop := addr + len
  if 2 ^ 64 ≤ stop ∨ len = 0 then a
  else
    let free := Ranges.cutAll addr stop a.free
    if addr < a.cursor ∧ a.floor < stop then
      -- what is between the range and the old cursor is free from now on; the list is sorted,
      -- so `partition_point` finds where the starts below `stop` end
      { a with
        cursor := max addr a.floor
        free :=
          if stop < a.cursor then
            Ranges.below stop free ++ (stop, a.cursor - stop) :: Ranges.above stop free
          else free }
    else { a with free := free }

/-- Move the cursor over the free ranges that start at it; their number is enough fuel. -/
def absorb : Nat → Nat → List Range → Nat × List Range
  | 0, cursor, free => (cursor, free)
  | fuel + 1, cursor, free =>
    match free.find? fun r => r.1 = cursor with
    | none => (cursor, free)
    | some r => absorb fuel (cursor + r.2) (free.erase r)

def joinNext (r : Range) : List Range → List Range
  | [] => [r]
  | s :: rest => if r.1 + r.2 = s.1 then (r.1, r.2 + s.2) :: rest else r :: s :: rest

def joinPrevious (before : List Range) (after : List Range) : List Range :=
  match before.getLast?, after with
  | some (pa, pl), (addr, len) :: rest =>
    if pa + pl = addr then before.dropLast ++ (pa, pl + len) :: rest else before ++ after
  | _, _ => before ++ after

/-- Give `[addr, addr + len)` back, if it is inside `[cursor, top)` and none of it is free. -/
def freeRange (a : Arena) (addr len : Nat) : Arena :=
  let stop := addr + len
  if 2 ^ 64 ≤ stop ∨ len = 0 ∨ addr < a.cursor ∨ a.top < stop then a
  else if a.free.any fun r => addr < r.1 + r.2 && r.1 < stop then a
  else if addr = a.cursor then
    let (cursor, free) := absorb a.free.length stop a.free
    { a with cursor := cursor, free := free }
  else
    let after := joinNext (addr, len) (Ranges.above addr a.free)
    { a with free := joinPrevious (Ranges.below addr a.free) after }

end Arena

end NixVm
