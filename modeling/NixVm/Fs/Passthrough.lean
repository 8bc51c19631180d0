/-
Resolution of a path below a host directory (`src/fs/passthrough.rs`, `resolve`).

The walk keeps a queue of components still to come and a stack of open directories whose first
element is the mount root.

The host is a parameter: what `openat` and `readlinkat` of one component return. A turn of the loop
is a function of its own, so that nothing here says by itself that the loop ends.
-/
import NixVm.Lib.Text

namespace NixVm.Passthrough

open Text

/-- An `errno` value, as the host numbers it. -/
abbrev Errno := Nat

def enoent : Errno := 2
def eacces : Errno := 13
def eisdir : Errno := 21
def einval : Errno := 22
def eloop : Errno := 40

def maxSymlinks : Nat := 40
/-- How many components one resolution looks at. -/
def maxComponents : Nat := 4096

/-- The host calls the walk makes, each on one component of an open directory. -/
structure Calls (Fd : Type) where
  /-- Open the mount root. -/
  rootFd : Except Errno Fd
  /-- `openat` with `O_NOFOLLOW`, and `O_DIRECTORY` if asked for. -/
  openat : Fd → Str → (directory : Bool) → Except Errno Fd
  /-- The target of a symlink, or `none` if it is not one. -/
  readlinkat : Fd → Str → Except Errno (Option Str)

def dot : Str := ['.']
def dotdot : Str := ['.', '.']

/-- Cut a path of the guest into components.  A literal `..` is refused. -/
def splitRel (rel : Str) : Except Errno (List Str) :=
  if dotdot ∈ split '/' rel then .error eacces
  else .ok ((split '/' rel).filter fun c => c ≠ [] ∧ c ≠ dot)

/-- Cut a symlink target into components, and say whether it is absolute. -/
def splitTarget (target : Str) : Bool × List Str :=
  (target.head? = some '/', (split '/' target).filter fun c => c ≠ [] ∧ c ≠ dot)

/-- A component as the host takes it, without a NUL. -/
def cstr (name : Str) : Except Errno Str :=
  if Char.ofNat 0 ∈ name then .error einval else .ok name

structure Walk (Fd : Type) where
  queue : List Str
  /-- Open directories, the mount root first. -/
  stack : List Fd
  budget : Nat
  seen : Nat

inductive Turn (Fd : Type)
  | next (w : Walk Fd)
  | done (r : Except Errno (Fd × Str))
  | panic

variable {Fd : Type}

/-- Hand back the directory on top of the stack, and `name`. -/
def Walk.found (w : Walk Fd) (name : Str) : Turn Fd :=
  match w.stack.getLast? with
  | none => .panic
  | some parent => .done (.ok (parent, name))

/-- A symlink: put its target in front of the queue. -/
def Walk.follow (w : Walk Fd) (calls : Calls Fd) (parent : Fd) (name : Str) : Turn Fd :=
  match calls.readlinkat parent name with
  | .error e => .done (.error e)
  | .ok none => .done (.error eloop)
  | .ok (some target) =>
    if w.budget = 0 then .done (.error eloop)
    else
      .next { w with
        budget := w.budget - 1
        stack := if (splitTarget target).1 then w.stack.take 1 else w.stack
        queue := (splitTarget target).2 ++ w.queue }

/-- Look at the component `name`, the queue being what comes after it. -/
def Walk.visit (w : Walk Fd) (calls : Calls Fd) (followFinal allowMissingFinal : Bool)
    (name : Str) : Turn Fd :=
  match cstr name with
  | .error e => .done (.error e)
  | .ok name =>
    match w.stack.getLast? with
    | none => .panic
    | some parent =>
      let isLast := w.queue.isEmpty
      if isLast && !followFinal then w.found name
      else
        match calls.openat parent name (!isLast) with
        | .ok fd =>
          if isLast then w.found name
          else .next { w with stack := w.stack ++ [fd] }
        | .error e =>
          if isLast && followFinal && allowMissingFinal && e = enoent then w.found name
          else if e = eloop then w.follow calls parent name
          else .done (.error e)

def Walk.turn (w : Walk Fd) (calls : Calls Fd) (followFinal allowMissingFinal : Bool) : Turn Fd :=
  match w.queue with
  | [] => .done (.error eisdir)
  | name :: rest =>
    let w := { w with queue := rest, seen := w.seen + 1 }
    if maxComponents < w.seen then .done (.error eloop)
    else if name = dotdot then
      .next { w with stack := if 1 < w.stack.length then w.stack.dropLast else w.stack }
    else w.visit calls followFinal allowMissingFinal name

/-- At most `fuel` turns; `none` if the loop is not over by then. -/
def Walk.run (calls : Calls Fd) (followFinal allowMissingFinal : Bool) :
    Nat → Walk Fd → Option (Turn Fd)
  | 0, _ => none
  | fuel + 1, w =>
    match w.turn calls followFinal allowMissingFinal with
    | .next w => Walk.run calls followFinal allowMissingFinal fuel w
    | t => some t

/-- `resolve`, given up after `fuel` turns of its loop. -/
def resolve (calls : Calls Fd) (fuel : Nat) (rel : Str) (followFinal allowMissingFinal : Bool) :
    Option (Turn Fd) :=
  match splitRel rel with
  | .error e => some (.done (.error e))
  | .ok queue =>
    if queue = [] then some (.done (.error eisdir))
    else
      match calls.rootFd with
      | .error e => some (.done (.error e))
      | .ok root =>
        Walk.run calls followFinal allowMissingFinal fuel ⟨queue, [root], maxSymlinks, 0⟩

end NixVm.Passthrough
