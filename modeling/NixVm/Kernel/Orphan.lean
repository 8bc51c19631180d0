/-
Files that are renamed, replaced or unlinked while they are open (`src/kernel/orphan.rs` and
`sys_renameat` of `src/kernel/fs_ext.rs`).

A descriptor of a file is a path.

The mounts are a parameter: how a path is made canonical, which mount serves it, and which renames
the filesystem there refuses, for whatever reason of its own (read-only, no space). `Fd.node` is
the node a descriptor was opened on; it is not a field of the source.
-/
import NixVm.Kernel.Errno
import NixVm.Lib.Run

namespace NixVm.Orphan

inductive Name
  | user (s : String)
  | orphan (n : Nat)
  | exchange (n : Name)
  | swap (n : Name)
  deriving DecidableEq, Repr

abbrev Path := List Name

inductive Kind
  | file
  | dir
  /-- A symbolic link, a fifo. -/
  | other
  deriving DecidableEq, Repr

structure Node where
  kind : Kind
  id : Nat
  deriving DecidableEq, Repr

structure Tree where
  node : Path → Option Node
  paths : List Path
  finite : ∀ p, node p ≠ none → p ∈ paths

structure Mounts where
  /-- The path with the links among its directories followed. -/
  canonical : Tree → Path → Path
  /-- `best_mount`, of a canonical path. -/
  pointOf : Path → Option Path
  refuses : Tree → Path → Path → Option Errno

namespace Tree

def stat (m : Mounts) (t : Tree) (p : Path) : Option Node := t.node (m.canonical t p)

def movedNode (m : Mounts) (t : Tree) (a b p : Path) : Option Node :=
  if m.pointOf p ≠ m.pointOf a then t.node p
  else if b <+: p then
    if m.pointOf (a ++ p.drop b.length) = m.pointOf a then t.node (a ++ p.drop b.length) else none
  else if a <+: p then none
  else t.node p

def rebase (a b p : Path) : Path := b ++ p.drop a.length

lemma movedNode_finite (m : Mounts) (t : Tree) (a b p : Path) (h : t.movedNode m a b p ≠ none) :
    p ∈ t.paths ++ t.paths.map (rebase a b) := by
  unfold movedNode at h
  rw [List.mem_append]
  split at h
  · exact .inl (t.finite p h)
  split at h
  next hb =>
    split at h
    · refine .inr (List.mem_map.mpr ⟨a ++ p.drop b.length, t.finite _ h, ?_⟩)
      rw [rebase, List.drop_left]
      exact List.prefix_iff_eq_append.mp hb
    · exact absurd rfl h
  split at h
  · exact absurd rfl h
  · exact .inl (t.finite p h)

def moved (m : Mounts) (t : Tree) (a b : Path) : Tree :=
  ⟨t.movedNode m a b, t.paths ++ t.paths.map (rebase a b), t.movedNode_finite m a b⟩

def occupied (m : Mounts) (t : Tree) (b : Path) : Bool :=
  t.paths.any fun p => b <+: p && p ≠ b && (t.node p).isSome && m.pointOf p = m.pointOf b

def inDirectory (t : Tree) (p : Path) : Except Errno Unit :=
  match t.node p.dropLast with
  | none => .error .enoent
  | some n => if n.kind = .dir then .ok () else .error .enotdir

def rename (m : Mounts) (t : Tree) (old new : Path) : Except Errno Tree :=
  let a := m.canonical t old
  let b := m.canonical t new
  if m.pointOf a = none ∨ m.pointOf b = none then .error .enoent
  else if m.pointOf a ≠ m.pointOf b then .error .exdev
  else
    match m.refuses t a b, t.node a with
    | some e, _ => .error e
    | none, none => .error .enoent
    | none, some n =>
      if a = b then .ok t
      else if a <+: b then .error .einval
      else if t.occupied m b then .error .enotempty
      else
        match t.inDirectory b, t.node b with
        | .error e, _ => .error e
        | .ok (), none => .ok (t.moved m a b)
        | .ok (), some o =>
          if o.kind = .dir ∧ n.kind ≠ .dir then .error .eisdir
          else if o.kind ≠ .dir ∧ n.kind = .dir then .error .enotdir
          else .ok (t.moved m a b)

def set (t : Tree) (p : Path) (n : Option Node) : Tree where
  node q := if q = p then n else t.node q
  paths := p :: t.paths
  finite q h := by
    by_cases hq : q = p
    · exact hq ▸ List.mem_cons_self
    rw [if_neg hq] at h
    exact List.mem_cons_of_mem p (t.finite q h)

def unlink (m : Mounts) (t : Tree) (p : Path) : Except Errno Tree :=
  match t.stat m p with
  | none => .error .enoent
  | some n => if n.kind = .dir then .error .eisdir else .ok (t.set (m.canonical t p) none)

def discard (m : Mounts) (t : Tree) (p : Path) : Tree :=
  match t.unlink m p with
  | .ok t' => t'
  | .error _ => t

def add (m : Mounts) (t : Tree) (p : Path) (n : Node) : Except Errno Tree :=
  match t.stat m p, t.inDirectory (m.canonical t p) with
  | some _, _ => .error .eexist
  | none, .error e => .error e
  | none, .ok () => .ok (t.set (m.canonical t p) (some n))

end Tree

structure Flags where
  noreplace : Bool
  exchange : Bool
  whiteout : Bool
  /-- Any other bit. -/
  unknown : Bool
  deriving DecidableEq, Repr

def Path.suffixed (f : Name → Name) (p : Path) : Path := p.dropLast ++ [f (p.getLast?.getD (.user ""))]

/-- The exchange as three renames, with what is there when one of them fails. -/
def exchange (m : Mounts) (t : Tree) (a b : Path) : Option Errno × Tree :=
  let tmp := b.suffixed .exchange
  match t.rename m a tmp with
  | .error _ => (some .eio, t)
  | .ok t₁ =>
    match t₁.rename m b a with
    | .error _ => (some .eio, t₁)
    | .ok t₂ =>
      match t₂.rename m tmp b with
      | .error _ => (some .eio, t₂)
      | .ok t₃ => (none, t₃)

def sysRenameat (m : Mounts) (t : Tree) (a b : Path) (flags : Flags) : Option Errno × Tree :=
  if flags.noreplace ∧ (t.stat m b).isSome then (some .eexist, t)
  else if flags.exchange then
    if (t.stat m a).isNone ∨ (t.stat m b).isNone then (some .enoent, t)
    else Orphan.exchange m t a b
  else
    match t.rename m a b with
    | .error e => (some e, t)
    | .ok t' => (none, t')

structure Fd where
  path : Path
  dir : Bool
  node : Nat
  deriving DecidableEq, Repr

def names (p q : Path) : Bool := p = q || (q ≠ [] && q.isPrefixOf p)

/-- The descriptors: the caller's, those in `file_tables`, and those of tasks on other CPUs. -/
structure State where
  tree : Tree
  cur : List Fd
  tables : List (List Fd)
  away : List (List Fd)
  orphans : List Path
  seq : Nat
  /-- The next new node's id. -/
  ids : Nat

namespace State

def seen (s : State) : List Fd := s.cur ++ s.tables.flatten

def pathIsOpen (s : State) (p : Path) : Bool := s.seen.any fun f => names f.path p

def fix (a b : Path) (f : Fd) : Fd :=
  if names f.path a then { f with path := Tree.rebase a b f.path } else f

def repoint (s : State) (a b : Path) : State :=
  { s with cur := s.cur.map (fix a b), tables := s.tables.map (·.map (fix a b)) }

/-- `orphan_homes`, with the two numbers it takes. -/
def orphanHomes (m : Mounts) (s : State) (dir : Path) : Path × Path :=
  (((m.pointOf (m.canonical s.tree dir)).getD []) ++ [.orphan s.seq], dir ++ [.orphan (s.seq + 1)])

def orphanMove (m : Mounts) (s : State) (p : Path) : Except Errno (Path × Tree) :=
  let (root, near) := s.orphanHomes m p.dropLast
  match s.tree.rename m p root with
  | .ok t => .ok (root, t)
  | .error _ =>
    match s.tree.rename m p near with
    | .ok t => .ok (near, t)
    | .error e => .error e

def keep (s : State) (p hidden : Path) (t : Tree) : State :=
  let s' := ({ s with tree := t, seq := s.seq + 2 } : State).repoint p hidden
  { s' with orphans := hidden :: s.orphans }

def isFile (m : Mounts) (s : State) (p : Path) : Bool :=
  match s.tree.stat m p with
  | some n => n.kind ≠ .dir
  | none => false

def replacesOpen (m : Mounts) (s : State) (a b : Path) (flags : Flags) : Bool :=
  !flags.noreplace && s.isFile m b && s.isFile m a && s.pathIsOpen b

def setAside (m : Mounts) (s : State) (a b : Path) (flags : Flags) : State :=
  if s.replacesOpen m a b flags then
    match s.orphanMove m b with
    | .ok (hidden, t) => s.keep b hidden t
    | .error _ => { s with seq := s.seq + 2 }
  else s

/-- `sys_rename_keep_open`.  A path that cannot be read is `none`. -/
def sysRename (m : Mounts) (s : State) (old new : Option Path) (flags : Flags) :
    Option Errno × State :=
  if flags.unknown ∨ (flags.exchange ∧ (flags.noreplace ∨ flags.whiteout)) then (some .einval, s)
  else
    match old, new with
    | some a, some b =>
      if a = b ∨ flags.exchange then
        let (r, t) := sysRenameat m s.tree a b flags
        let s' := { s with tree := t }
        if r = none ∧ flags.exchange then
          let tmp := b.suffixed .swap
          (r, ((s'.repoint a tmp).repoint b a).repoint tmp b)
        else (r, s')
      else
        let s' := s.setAside m a b flags
        let (r, t) := sysRenameat m s'.tree a b flags
        let s'' := { s' with tree := t }
        if r = none then (r, s''.repoint a b) else (r, s'')
    | _, _ => (some .efault, s)

/-- `sys_unlink_keep_open`, without `AT_REMOVEDIR`. -/
def sysUnlink (m : Mounts) (s : State) (p : Path) : Option Errno × State :=
  if s.isFile m p && s.pathIsOpen p then
    match s.orphanMove m p with
    | .ok (hidden, t) => (none, s.keep p hidden t)
    | .error e => (some e, { s with seq := s.seq + 2 })
  else
    match s.tree.unlink m p with
    | .ok t => (none, { s with tree := t })
    | .error e => (some e, s)

def linkOrphan (m : Mounts) (s : State) (old new : Path) : Option (Option Errno × State) :=
  if old ∉ s.orphans then none
  else if (s.tree.stat m new).isSome then some (some .eexist, s)
  else
    match s.tree.rename m old new with
    | .error e => some (some e, s)
    | .ok t => some (none, { s with
        tree := t
        orphans := s.orphans.filter (· ≠ old)
        -- only the caller's own table is reachable here
        cur := s.cur.map fun f => if !f.dir && f.path = old then { f with path := new } else f })

def sysLink (m : Mounts) (s : State) (old new : Path) : Option Errno × State :=
  match s.linkOrphan m old new with
  | some r => r
  | none =>
    match s.tree.stat m old with
    | none => (some .enoent, s)
    | some n =>
      if n.kind = .dir then (some .eperm, s)
      else
        match s.tree.add m new n with
        | .ok t => (none, { s with tree := t })
        | .error e => (some e, s)

def reap (m : Mounts) (s : State) : State :=
  { s with
    tree := (s.orphans.filter fun o => !s.pathIsOpen o).foldl (Tree.discard m) s.tree
    orphans := s.orphans.filter s.pathIsOpen }

end State

inductive Op
  | openFile (p : Path)
  /-- Make a file and open it. -/
  | create (p : Path)
  | mkdir (p : Path)
  | unlink (p : Path)
  | rename (old new : Option Path) (flags : Flags)
  | link (old new : Path)
  | close (k : Nat)
  | fork
  | switch (k : Nat)
  /-- Another CPU takes a task, and is done with it. -/
  | leave (k : Nat)
  | enter (k : Nat)

structure Turn where
  op : Op
  refuses : Tree → Path → Path → Option Errno

def State.apply (m : Mounts) (s : State) : Op → Option State
  | .openFile p =>
    match s.tree.stat m p with
    | some ⟨.file, id⟩ => some { s with cur := ⟨p, false, id⟩ :: s.cur }
    | _ => none
  | .create p =>
    match s.tree.add m p ⟨.file, s.ids⟩ with
    | .ok t => some { s with tree := t, cur := ⟨p, false, s.ids⟩ :: s.cur, ids := s.ids + 1 }
    | .error _ => none
  | .mkdir p =>
    match s.tree.add m p ⟨.dir, s.ids⟩ with
    | .ok t => some { s with tree := t, ids := s.ids + 1 }
    | .error _ => none
  | .unlink p => some (s.sysUnlink m p).2
  | .rename old new flags => some (s.sysRename m old new flags).2
  | .link old new => some (s.sysLink m old new).2
  | .close k => some (State.reap m { s with cur := s.cur.eraseIdx k })
  | .fork => some { s with tables := s.cur :: s.tables }
  | .switch k =>
    match s.tables[k]? with
    | some fds => some { s with cur := fds, tables := s.tables.set k s.cur }
    | none => none
  | .leave k =>
    match s.tables[k]? with
    | some fds => some { s with tables := s.tables.eraseIdx k, away := fds :: s.away }
    | none => none
  | .enter k =>
    match s.away[k]? with
    | some fds => some { s with away := s.away.eraseIdx k, tables := fds :: s.tables }
    | none => none

def State.step (m : Mounts) (s : State) (o : Turn) : Option State :=
  s.apply { m with refuses := o.refuses } o.op

def State.init : State where
  tree := ⟨fun p => if p = [] then some ⟨.dir, 0⟩ else none, [[]], fun p h => by
    by_cases hp : p = []
    · exact List.mem_singleton.mpr hp
    · exact absurd (if_neg hp) h⟩
  cur := []
  tables := []
  away := []
  orphans := []
  seq := 0
  ids := 1

end NixVm.Orphan
