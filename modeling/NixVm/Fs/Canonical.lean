/-
Resolving the paths of a task with a root directory of its own (`MountTable::canonical` and
`follow` in `src/fs/mount.rs`, `resolve_path` in `src/kernel/mod.rs`).

A path without `.` and `..` is the list of its names. The filesystems are whatever `look` says is
at a path, with no link followed.

A while loop over the components still to walk is `level`, which is recursive in them; a symbolic
link starts the next level with one hop less.
-/
import NixVm.Lib.Text

namespace NixVm.Chroot

abbrev Name := Text.Str

abbrev Path := List Name

inductive Comp
  | here
  | up
  | name (n : Name)
  deriving DecidableEq

structure Given where
  absolute : Bool
  comps : List Comp
  deriving DecidableEq

/-- What is at a path.  A link has no target if it cannot be read. -/
inductive Node
  | dir
  | symlink (target : Option Given)
  | other
  deriving DecidableEq

abbrev Look := Path → Option Node

def symlinkMax : Nat := 40

def normalizeFrom (stack : Path) : List Comp → Path
  | [] => stack
  | .here :: rest => normalizeFrom stack rest
  | .up :: rest => normalizeFrom stack.dropLast rest
  | .name n :: rest => normalizeFrom (stack ++ [n]) rest

def normalize (comps : List Comp) : Path := normalizeFrom [] comps

def names (p : Path) : List Comp := p.map .name

def byteLen (p : Path) : Nat := (p.map fun n => 1 + (n.map Char.utf8Size).sum).sum

section Canonical

variable (look : Look) (root : Path)

/-- The loop of `canonical` up to the next link, where `next` goes on. -/
def level (path : Path) (next : Path → List Comp → Path) (done : Path) : List Comp → Path
  | [] => done
  | .here :: rest => level path next done rest
  | .up :: rest =>
    level path next (if byteLen root < byteLen done then done.dropLast else done) rest
  | .name c :: rest =>
    let cand := done ++ [c]
    if rest = [] then cand
    else
      match look cand with
      | some (.symlink none) => path
      | some (.symlink (some t)) => next (if t.absolute then root else done) (t.comps ++ rest)
      | none => normalize (names cand ++ rest)
      | some _ => level path next cand rest

def walk (path : Path) : Nat → Path → List Comp → Path
  | 0 => level look root path fun _ _ => path
  | hops + 1 => level look root path (walk path hops)

def canonical (path : Path) : Path :=
  if path.length ≤ 1 then path
  else if look path.dropLast = some .dir then path
  else walk look root path symlinkMax [] (names path)

end Canonical

end NixVm.Chroot
