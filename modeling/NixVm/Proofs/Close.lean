/-
What closing descriptors does to the locks, whatever the table of locks holds.

The file is looked up by the descriptor's path: a path that leads nowhere stands for every file, and
one that leads to another file for that one. The tables of a group's other tasks are emptied without
a look at their locks. So the locks that go are those found on these ways, and the call is right
exactly if they are the ones that are owed.
-/
import NixVm.Kernel.Fcntl

namespace NixVm.Fcntl

open Sys List Option

variable {s s' : Sys} {op : Op} {tgid : Int} {i j : Nat} {f g : FileFd} {ofd : Nat}

variable {fds : List Nat} {k : FileKey} {o : Owner}

def openedOps : List Op :=
  [.bind "/a" ("/", 2), .bind "/d/b" ("/", 3), .openFile "/a" 0 true true,
    .openFile "/d/b" 1 true true, .dup 0]

def someLocks : FileLocks where
  records k := if k = ("/", 2) then [⟨.process 10, true, 0, 1, 10⟩] else []
  flocks k := if k = ("/", 2) then [⟨0, true⟩] else []

/-- The end of a group leaves a description's locks whose last descriptors were in another task's
table. -/
lemma Sys.exitGroup_leaves_flock : ∃ s s' : Sys, s.Reach (fun _ _ => True) ∧
    ({ s with locks := someLocks } : Sys).closing 10 (.exitGroup [0, 2] [1]) = some s' ∧
    s'.refs 0 = 0 ∧ s'.locks.flocks ("/", 2) = [⟨0, true⟩] :=
  ⟨_, _, Run.Reach.of_exec_free openedOps rfl, rfl, by decide, by decide⟩

end NixVm.Fcntl
