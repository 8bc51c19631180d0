/-
All the address spaces of a run, over the one pool they share.

`newSplit` makes the pool and the first space; every other space is the fork of one that is there.
A run is a sequence of calls on these spaces, whatever they return: what a call that failed half
way did stays done. Frames that `alloc_frames` handed out are in `held` until `release_frames`
takes them back.

A space whose last task has exited is kept, retired.
-/
import NixVm.Vcpu.Mem

namespace NixVm

inductive Call
  | map (addr len : Nat) (prot : Prot)
  | mapSharedAnon (addr len : Nat) (prot : Prot)
  | mapFrames (addr : Nat) (frames : List Nat) (prot : Prot)
  | protect (addr len : Nat) (prot : Prot)
  | unmap (addr len : Nat)
  | write (addr : Nat) (buf : List Byte)
  | writeInit (addr : Nat) (buf : List Byte)
  | demandFault (addr : Nat)
  | cowFault (addr : Nat) (isWrite : Bool)
  | setForkPolicy (addr len : Nat) (policy : BitVec 8)
  | markFileBacked (addr len : Nat)
  | setLocked (addr len : Nat) (locked : Bool)
  | lockAll (current future : Bool)
  | unlockAll

/-- What a call returns, as far as its caller acts on it, and what it leaves behind. -/
abbrev Done := Bool × GuestMemory × Pool

def GuestMemory.Outcome.done (r : GuestMemory.Outcome) : Done := (r.1.isOk, r.2)

/-- The call on the space `g`.  `none` is a panic. -/
def Call.run (g : GuestMemory) (pl : Pool) : Call → Option Done
  | .map addr len prot => some (GuestMemory.Outcome.done (g.map addr len prot pl))
  | .mapSharedAnon addr len prot =>
    some (GuestMemory.Outcome.done (g.mapSharedAnon addr len prot pl))
  | .mapFrames addr frames prot => (g.mapFrames addr frames prot pl).map GuestMemory.Outcome.done
  | .protect addr len prot => some (GuestMemory.Outcome.done (g.protect addr len prot pl))
  | .unmap addr len => some (GuestMemory.Outcome.done (g.unmap addr len pl))
  | .write addr buf => some (GuestMemory.Outcome.done (g.write addr buf pl))
  | .writeInit addr buf => some (GuestMemory.Outcome.done (g.writeInit addr buf pl))
  | .demandFault addr => some ((g.demandFault addr pl).1, g, (g.demandFault addr pl).2)
  | .cowFault addr isWrite =>
    some ((g.cowFault addr isWrite pl).1, g, (g.cowFault addr isWrite pl).2)
  | .setForkPolicy addr len policy =>
    some ((g.setForkPolicy addr len policy).1.isOk, (g.setForkPolicy addr len policy).2, pl)
  | .markFileBacked addr len => some (true, g.markFileBacked addr len, pl)
  | .setLocked addr len locked => some (true, g.setLocked addr len locked, pl)
  | .lockAll current future => some (true, g.lockAll current future, pl)
  | .unlockAll => some (true, g.unlockAll, pl)

/-- All the spaces, their pool, and the frames owned by none of them. -/
structure Sys where
  pool : Pool
  spaces : List GuestMemory
  held : List Nat

inductive Op
  | call (i : Nat) (c : Call)
  | tryFork (i : Nat)
  | execReset (i : Nat)
  | retire (i : Nat)
  | allocFrames (n : Nat)
  | releaseFrames (frames : List Nat)

namespace Sys

def boot (ceiling : Nat) (image : Nat → Byte) (base vsize physBytes : Nat) : Option Sys :=
  (GuestMemory.newSplit ceiling image base vsize physBytes).map fun r => ⟨r.2, [r.1], []⟩

def put (s : Sys) (i : Nat) (g : GuestMemory) (pl : Pool) : Sys :=
  { s with pool := pl, spaces := s.spaces.set i g }

/-- One step, with whether the call succeeded. `none` is a panic or no such space. -/
def step (s : Sys) : Op → Option (Bool × Sys)
  | .call i c =>
    match s.spaces[i]? with
    | none => none
    | some g => (c.run g s.pool).map fun r => (r.1, s.put i r.2.1 r.2.2)
  | .tryFork i =>
    match s.spaces[i]? with
    | none => none
    | some g =>
      match g.tryFork s.pool with
      | none => none
      | some (none, g, pl) => some (false, s.put i g pl)
      | some (some child, g, pl) =>
        some (true, { s.put i g pl with spaces := s.spaces.set i g ++ [child] })
  | .execReset i =>
    match s.spaces[i]? with
    | none => none
    | some g => (g.execReset s.pool).map fun r => (true, s.put i r.1 r.2)
  | .retire i =>
    match s.spaces[i]? with
    | none => none
    | some g => some (true, s.put i (g.retire s.pool).1 (g.retire s.pool).2)
  | .allocFrames n =>
    match GuestMemory.allocFrames n [] s.pool with
    | (none, pl) => some (false, { s with pool := pl })
    | (some frames, pl) => some (true, { s with pool := pl, held := s.held ++ frames })
  | .releaseFrames frames =>
    some (true, { s with
      pool := GuestMemory.releaseFrames frames s.pool, held := s.held.diff frames })

def Next (can : Sys → Op → Prop) (s s' : Sys) : Prop :=
  ∃ op b, can s op ∧ s.step op = some (b, s')

def steps : List Op → Sys → Option Sys
  | [], s => some s
  | op :: ops, s =>
    match s.step op with
    | some (true, s) => steps ops s
    | _ => none

end Sys

end NixVm
