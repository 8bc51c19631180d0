/-
The mount table of a namespace (`src/fs/mount.rs`).

Paths are lists of components, as `normalize` leaves them, and the sources of bind mounts have been
followed through their links. A path is resolved by the mount with the longest point above it, the
last of those at one point. What a mount shows is a filesystem from a directory of it on.
-/
import NixVm.Kernel.Errno
import NixVm.Lib.Longest
import NixVm.Lib.Run

namespace NixVm.Mounts

/-- A component of a path.  The guest has no name for the place of a detached mount. -/
inductive Name
  | plain (s : String)
  | hidden (k : Nat)
  deriving DecidableEq

abbrev Path := List Name

structure Mount where
  point : Path
  fs : Nat
  subdir : Path
  guest : Bool
  readOnly : Bool
  locked : Bool
  pivotSide : Nat
  peer : Nat
  master : Nat
  unbindable : Bool
  deriving DecidableEq

/-- The source's `path_has_prefix`. -/
def below (p q : Path) : Bool := decide (q <+: p)

def relativeTo (p q : Path) : Path := p.drop q.length

def Mount.fsPath (m : Mount) (rel : Path) : Path := m.subdir ++ rel

def bestMount (ms : List Mount) (p : Path) : Option Mount := Longest.best Mount.point ms p

def resolve (ms : List Mount) (p : Path) : Option (Mount × Path) :=
  (bestMount ms p).map fun m => (m, m.fsPath (relativeTo p m.point))

/-- `mounts` are those of the namespace `current`; the other namespaces are in `parked`. -/
structure State where
  mounts : List Mount
  current : Nat
  parked : List (Nat × List Mount)
  groups : Nat
  pivots : Nat
  detached : Nat
  nextFs : Nat
  deriving DecidableEq

def State.all (s : State) : List (Nat × Mount) :=
  s.mounts.map (s.current, ·) ++ s.parked.flatMap fun e => e.2.map (e.1, ·)

def State.modify (s : State) (ns : Nat) (f : List Mount → List Mount) : State :=
  if ns = s.current then { s with mounts := f s.mounts }
  else { s with parked := s.parked.map fun e => if e.1 = ns then (e.1, f e.2) else e }

/-- `copy_namespace` for a less privileged user namespace: all but the root is locked, and what was
shared is a slave. -/
def copyNamespace (ms : List Mount) : List Mount :=
  ms.map fun m =>
    let m := if m.point = [] then m else { m with locked := true }
    if m.peer = 0 then m else { m with master := m.peer, peer := 0 }

/-! ### Propagation -/

/-- `path_strip`: a path in a filesystem, below a directory of it. -/
def strip (p dir : Path) : Option Path := if dir <+: p then some (p.drop dir.length) else none

def place (tree : List Mount) (top dir : Path) (target : Mount) (peers masters : List Nat) :
    List Mount :=
  match strip dir target.subdir with
  | none => []
  | some rel => tree.zipIdx.map fun e => { e.1 with
      point := target.point ++ rel ++ relativeTo e.1.point top
      guest := true
      locked := false
      pivotSide := target.pivotSide
      peer := peers.getD e.2 0
      master := masters.getD e.2 0 }

/-- The peer groups to copy into, with the groups and masters the copies get; the groups done; the
copies; and the last group number. -/
structure Spread where
  queue : List (Nat × List Nat × List Nat)
  seen : List Nat
  copies : List (Nat × Mount)
  groups : Nat

def number : Nat → List Nat → Nat × List Nat
  | g, [] => (g, [])
  | g, 0 :: rest => ((number (g + 1) rest).1, (g + 1) :: (number (g + 1) rest).2)
  | g, n :: rest => ((number g rest).1, n :: (number g rest).2)

def numberQueue : Nat → List (Nat × List Nat × List Nat) → Nat × List (Nat × List Nat × List Nat)
  | g, [] => (g, [])
  | g, (group, peers, masters) :: rest =>
    let r := numberQueue (number g peers).1 rest
    (r.1, (group, (number g peers).2, masters) :: r.2)

def State.visit (s : State) (parent : Mount) (tree : List Mount) (top dir : Path)
    (group : Nat) (peers masters : List Nat) (w : Spread) (t : Nat × Mount) : Spread :=
  let isSource := t.1 = s.current ∧ t.2.point = parent.point
  if t.2.peer = group ∧ ¬isSource ∧ t.2.fs = parent.fs then
    { w with copies := w.copies ++ (place tree top dir t.2 peers masters).map (t.1, ·) }
  else if t.2.master = group ∧ t.2.fs = parent.fs then
    if t.2.peer = 0 then
      { w with copies := w.copies ++
          (place tree top dir t.2 (List.replicate tree.length 0) peers).map (t.1, ·) }
    else { w with queue := w.queue ++ [(t.2.peer, List.replicate tree.length 0, peers)] }
  else w

/-- The loop of `attach`. -/
def State.spread (s : State) (parent : Mount) (tree : List Mount) (top dir : Path) :
    Nat → Spread → Spread
  | 0, w => w
  | fuel + 1, w =>
    match w.queue.getLast? with
    | none => w
    | some (group, peers, masters) =>
      let w := { w with queue := w.queue.dropLast }
      if group ∈ w.seen then s.spread parent tree top dir fuel w
      else
        let w := s.all.foldl (s.visit parent tree top dir group peers masters)
          { w with seen := group :: w.seen }
        let r := numberQueue w.groups w.queue
        s.spread parent tree top dir fuel { w with queue := r.2, groups := r.1 }

/-- Each group is done once, and queues at most one entry for each mount. -/
def State.spreadFuel (s : State) : Nat := 1 + (s.groups + 2) * (s.all.length + 1)

def State.push (s : State) (c : Nat × Mount) : State := s.modify c.1 (· ++ [c.2])

/-- `attach`: add a tree of mounts, with copies under the peers of a shared mount and their slaves.
-/
def State.attach (s : State) (tree : List Mount) : State :=
  match tree with
  | [] => s
  | first :: _ =>
    let top := first.point
    match bestMount s.mounts top with
    | none => { s with mounts := s.mounts ++ tree }
    | some parent =>
      if parent.peer = 0 then { s with mounts := s.mounts ++ tree }
      else
        let r := number s.groups (tree.map (·.peer))
        let tree := (tree.zip r.2).map fun e => { e.1 with peer := e.2 }
        let dir := parent.fsPath (relativeTo top parent.point)
        let w := s.spread parent tree top dir s.spreadFuel
          ⟨[(parent.peer, r.2, List.replicate tree.length 0)], [], [], r.1⟩
        w.copies.foldl State.push { s with mounts := s.mounts ++ tree, groups := w.groups }

def State.receiversFrom (s : State) : Nat → List Nat → List Nat → List (Nat × Mount) →
    List (Nat × Mount)
  | 0, _, _, out => out
  | fuel + 1, groups, seen, out =>
    match groups.getLast? with
    | none => out
    | some g =>
      if g ∈ seen then s.receiversFrom fuel groups.dropLast seen out
      else
        let hit := s.all.filter fun t => t.2.peer = g || t.2.master = g
        let more := (hit.filter fun t => t.2.master = g && t.2.peer ≠ 0).map (·.2.peer)
        s.receiversFrom fuel (groups.dropLast ++ more) (g :: seen) (out ++ hit)

def removeLast (ms : List Mount) (q : Mount → Bool) : List Mount := (ms.reverse.eraseP q).reverse

def lastAt (ms : List Mount) (point : Path) : Option Mount :=
  ms.reverse.find? (·.point = point)

def State.parentOf (s : State) (point : Path) : Option Mount :=
  bestMount (s.mounts.filter (·.point ≠ point)) point

/-- One receiver of an unmount: its copy goes, if nothing is mounted below it. -/
def unmountCopy (dir : Path) (parent gone : Mount) (s : State) (t : Nat × Mount) : State :=
  if (t.1 = s.current ∧ t.2.point = parent.point) ∨ t.2.fs ≠ parent.fs then s
  else
    match strip dir t.2.subdir with
    | none => s
    | some rel =>
      let point := t.2.point ++ rel
      s.modify t.1 fun ms =>
        if ms.any fun m => m.point ≠ point && below m.point point then ms
        else removeLast ms fun m => m.point = point && m.fs = gone.fs

def State.propagateUnmount (s : State) (gone : Mount) : State :=
  match s.parentOf gone.point with
  | none => s
  | some parent =>
    if parent.peer = 0 then s
    else
      let dir := parent.fsPath (relativeTo gone.point parent.point)
      (s.receiversFrom s.spreadFuel [parent.peer] [] []).foldl (unmountCopy dir parent gone) s

/-! ### The operations -/

/-- `mount_guest`: a new filesystem. -/
def State.mount (s : State) (point : Path) : State :=
  { s with nextFs := s.nextFs + 1 }.attach
    [⟨point, s.nextFs, [], true, false, false, 0, 0, 0, false⟩]

def bindTree (ms : List Mount) (i : Mount) (source target : Path) (recursive : Bool) :
    List Mount :=
  { i with
    point := target
    subdir := i.fsPath (relativeTo source i.point)
    guest := true
    locked := false } ::
  if recursive then
    (ms.filter fun m => m.point ≠ source && below m.point source && !m.unbindable).map fun m =>
      { m with point := target ++ relativeTo m.point source, guest := true, locked := false }
  else []

def State.bind (s : State) (source target : Path) (recursive : Bool) : Option State :=
  match bestMount s.mounts source with
  | none => none
  | some i =>
    if i.unbindable then none
    else some (s.attach (bindTree s.mounts i source target recursive))

def Mount.moved (from_ to_ : Path) (m : Mount) : Mount :=
  if below m.point from_ then { m with point := to_ ++ relativeTo m.point from_ } else m

def State.moveMount (s : State) (from_ to_ : Path) : Option State :=
  if s.mounts.any fun m => m.point = from_ && !m.locked then
    some { s with mounts := s.mounts.map (Mount.moved from_ to_) }
  else none

def changeLast (ms : List Mount) (point : Path) (f : Mount → Mount) : List Mount :=
  match ms with
  | [] => []
  | m :: rest =>
    if m.point = point ∧ ∀ m' ∈ rest, m'.point ≠ point then f m :: rest
    else m :: changeLast rest point f

def State.setReadOnly (s : State) (point : Path) (readOnly : Bool) : Option State :=
  match lastAt s.mounts point with
  | none => none
  | some m =>
    if m.locked && m.readOnly && !readOnly then none
    else some { s with mounts := changeLast s.mounts point fun m => { m with readOnly } }

def pivotKeeps (top : Nat) (newRoot : Path) (e : Mount × Nat) : Bool :=
  decide (top ≤ e.2) && below e.1.point newRoot

def lastIdx (ms : List Mount) (point : Path) : Nat :=
  ms.length - 1 - (ms.reverse.findIdx (·.point = point))

def State.pivotRoot (s : State) (newRoot putOld : Path) : Option State :=
  if s.mounts.all (·.point ≠ newRoot) || !below putOld newRoot || newRoot = [] then none
  else
    let old := relativeTo putOld newRoot
    let top := lastIdx s.mounts newRoot
    let kept := (s.mounts.zipIdx.filter (pivotKeeps top newRoot)).map fun e =>
      { e.1 with point := relativeTo e.1.point newRoot }
    let rest := (s.mounts.zipIdx.filter (!pivotKeeps top newRoot ·)).map fun e =>
      { e.1 with point := old ++ e.1.point, pivotSide := s.pivots + 1 }
    some { s with mounts := kept ++ rest, pivots := s.pivots + 1 }

inductive Propagation
  | shared
  | private_
  | unbindable
  | slave
  deriving DecidableEq

/-- How propagation of one mount changes; `others`: its peer group has other mounts. -/
def Mount.propagate (kind : Propagation) (others : Bool) (fresh : Nat) (m : Mount) : Mount :=
  match kind with
  | .shared => { m with peer := if m.peer = 0 then fresh else m.peer, unbindable := false }
  | .private_ => { m with peer := 0, master := 0, unbindable := false }
  | .unbindable => { m with peer := 0, master := 0, unbindable := true }
  | .slave =>
    if m.peer = 0 then { m with unbindable := false }
    else { m with master := if others then m.peer else m.master, peer := 0, unbindable := false }

/-- The loop of `set_propagation` over the mounts that are its targets. -/
def State.propagateFrom (s : State) (kind : Propagation) : List Nat → State
  | [] => s
  | i :: rest =>
    match s.mounts[i]? with
    | none => s.propagateFrom kind rest
    | some m =>
      let others := decide (1 < (s.all.filter (·.2.peer = m.peer)).length)
      let groups := if kind = .shared ∧ m.peer = 0 then s.groups + 1 else s.groups
      { s with
        mounts := s.mounts.set i (m.propagate kind others (s.groups + 1))
        groups }.propagateFrom kind rest

def State.setPropagation (s : State) (point : Path) (kind : Propagation) (recursive : Bool) :
    Option State :=
  if s.mounts.all (·.point ≠ point) then none
  else
    let top := lastIdx s.mounts point
    let targets := ((s.mounts.zipIdx).filter fun e =>
      e.2 = top || (recursive && below e.1.point point && e.1.point ≠ point)).map (·.2)
    some (s.propagateFrom kind targets)

def Mount.detach (point hidden : Path) (side : Nat) (m : Mount) : Mount :=
  if m.point ≠ point ∧ m.pivotSide = side ∧ below m.point point then
    { m with point := hidden ++ relativeTo m.point point }
  else m

/-- `unmount`.  Its copies go first; a busy mount then stays all the same. -/
def State.unmount (s : State) (point : Path) (detach : Bool) : Option State :=
  match lastAt s.mounts point with
  | none => none
  | some top =>
    if top.locked then none
    else if !top.guest && s.current = 0 then none
    else
      let s := s.propagateUnmount top
      match lastAt s.mounts point with
      | none => some s
      | some gone =>
        let side := gone.pivotSide
        let children := s.mounts.any fun m =>
          m.point ≠ point && m.pivotSide = side && below m.point point
        if children && !detach then some s
        else
          let ms := removeLast s.mounts (·.point = point)
          if !detach then some { s with mounts := ms }
          else
            let hidden := [Name.hidden s.detached]
            some { s with
              mounts := ms.map (Mount.detach point hidden side) ++ [{ gone with point := hidden }]
              detached := s.detached + 1 }

def State.unmountError (s : State) (point : Path) (detach : Bool) : Option Errno :=
  match lastAt s.mounts point with
  | none => some .einval
  | some top =>
    if top.locked then some .einval
    else if !top.guest && s.current = 0 then some .ebusy
    else
      let s := s.propagateUnmount top
      match lastAt s.mounts point with
      | none => some .einval
      | some gone =>
        let children := s.mounts.any fun m =>
          m.point ≠ point && m.pivotSide = gone.pivotSide && below m.point point
        if children && !detach then some .ebusy else none

inductive Op
  | mount (point : Path)
  | bind (source target : Path) (recursive : Bool)
  | remount (point : Path) (readOnly : Bool)
  | move (source target : Path)
  | pivotRoot (newRoot putOld : Path)
  | setPropagation (point : Path) (kind : Propagation) (recursive : Bool)
  | unmount (point : Path) (detach : Bool)

def State.step (s : State) : Op → Option State
  | .mount point => some (s.mount point)
  | .bind source target recursive => s.bind source target recursive
  | .remount point readOnly => s.setReadOnly point readOnly
  | .move source target => s.moveMount source target
  | .pivotRoot newRoot putOld => s.pivotRoot newRoot putOld
  | .setPropagation point kind recursive => s.setPropagation point kind recursive
  | .unmount point detach => s.unmount point detach

abbrev State.Reach (can : State → Op → Prop) : State → State → Prop := Run.Reach State.step can

/-- A namespace just copied for a less privileged user namespace. -/
structure Inherited (s : State) : Prop where
  copied : ∃ ms, s.mounts = copyNamespace ms
  fresh : ∀ m ∈ s.mounts, m.fs < s.nextFs

end NixVm.Mounts
