/-
The copy-on-write overlay (`src/fs/overlay.rs`): a writable upper layer over a lower one that is
only read, and whiteouts that hide what was deleted.

A layer is a finite map from paths to nodes; a path is the list of its components, the root is
`[]`. The upper layer is any filesystem that keeps such a map: it may refuse whatever adds or
changes a node, at any point, as a full tmpfs does (`refuse`, asked in turn). Removing a name is
not refused, and its root is not moved. Files with one inode number are one file.
-/
import NixVm.Kernel.Errno
import NixVm.Lib.Run

namespace NixVm.OverlayFs

abbrev Path := List String

inductive Special
  | charDevice
  | blockDevice
  | fifo
  | socket
  deriving DecidableEq

/-- What is at a path: its kind, with a file's contents and a link's target. -/
inductive Entry
  | dir
  | file (data : List UInt8)
  | symlink (target : String)
  | special (kind : Special)
  deriving DecidableEq

def Entry.data : Entry → List UInt8
  | .file data => data
  | _ => []

structure Node where
  entry : Entry
  mode : Nat
  ino : Nat
  deriving DecidableEq

/-! ### Layers -/

/-- A finite map from paths to nodes: `paths` has every path at which there is one. -/
structure Layer where
  stat : Path → Option Node
  paths : List Path
  covers : ∀ p, stat p ≠ none → p ∈ paths

namespace Layer

def isDir (l : Layer) (p : Path) : Bool := (l.stat p).any fun n => n.entry = .dir

def names (l : Layer) (p : Path) : List String :=
  if l.isDir p then
    ((l.paths.filter fun q => (l.stat q).isSome && q.dropLast = p && q ≠ []).map
      fun q => q.getLastD "").dedup
  else []

def depth (l : Layer) : Nat := (l.paths.map List.length).foldr max 0

def set (l : Layer) (p : Path) (n : Node) : Layer where
  stat q := if q = p then some n else l.stat q
  paths := p :: l.paths
  covers q h := by
    by_cases hq : q = p
    · exact hq ▸ .head _
    rw [if_neg hq] at h
    exact .tail _ (l.covers q h)

def erase (l : Layer) (p : Path) : Layer where
  stat q := if q = p then none else l.stat q
  paths := l.paths
  covers q h := by
    by_cases hq : q = p
    · rw [if_pos hq] at h
      exact absurd rfl h
    · rw [if_neg hq] at h
      exact l.covers q h

def modify (l : Layer) (ino : Nat) (f : List UInt8 → List UInt8) : Layer where
  stat q := (l.stat q).map fun n =>
    if n.ino = ino then
      match n.entry with
      | .file data => { n with entry := .file (f data) }
      | _ => n
    else n
  paths := l.paths
  covers q h := l.covers q fun hq => h (by rw [hq]; rfl)

def move (l : Layer) (source target : Path) : Layer where
  stat q :=
    if target <+: q then l.stat (source ++ q.drop target.length)
    else if source <+: q then none
    else l.stat q
  paths := l.paths ++ l.paths.map fun q => target ++ q.drop source.length
  covers q h := by
    by_cases ht : target <+: q
    · rw [if_pos ht] at h
      refine List.mem_append_right _ (List.mem_map.mpr ⟨_, l.covers _ h, ?_⟩)
      rw [List.drop_left]
      exact List.prefix_iff_eq_append.mp ht
    rw [if_neg ht] at h
    split at h
    · exact absurd rfl h
    · exact List.mem_append_left _ (l.covers q h)

end Layer

/-! ### The upper layer -/

structure Upper where
  layer : Layer
  nextIno : Nat
  refuse : Nat → Option Errno
  tick : Nat

namespace Upper

abbrev Res := Option Errno × Upper

def stat (u : Upper) (p : Path) : Option Node := u.layer.stat p

def attempt (u : Upper) (f : Upper → Res) : Res :=
  let next := { u with tick := u.tick + 1 }
  match u.refuse u.tick with
  | some e => (some e, next)
  | none => f next

def checkNew (u : Upper) (p : Path) : Option Errno :=
  if (u.stat p).isSome then some .eexist
  else
    match u.stat p.dropLast with
    | none => some .enoent
    | some n => if n.entry = .dir then none else some .enotdir

/-- `create`, `mkdir`, `mknod` and `symlink`: a new node. -/
def make (u : Upper) (p : Path) (entry : Entry) (mode : Nat) : Res :=
  u.attempt fun u =>
    match u.checkNew p with
    | some e => (some e, u)
    | none =>
      (none, { u with layer := u.layer.set p ⟨entry, mode, u.nextIno⟩, nextIno := u.nextIno + 1 })

def link (u : Upper) (old new : Path) : Res :=
  u.attempt fun u =>
    match u.stat old with
    | none => (some .enoent, u)
    | some n =>
      if n.entry = .dir then (some .eperm, u)
      else
        match u.checkNew new with
        | some e => (some e, u)
        | none => (none, { u with layer := u.layer.set new n })

/-- `write_at` and `truncate`: new contents of a file. -/
def modify (u : Upper) (p : Path) (f : List UInt8 → List UInt8) : Res :=
  u.attempt fun u =>
    match u.stat p with
    | none => (some .enoent, u)
    | some n =>
      match n.entry with
      | .dir => (some .eisdir, u)
      | .file _ => (none, { u with layer := u.layer.modify n.ino f })
      | _ => (some .einval, u)

def unlink (u : Upper) (p : Path) : Res :=
  match u.stat p with
  | none => (some .enoent, u)
  | some n =>
    if n.entry = .dir then (some .eisdir, u) else (none, { u with layer := u.layer.erase p })

def rmdir (u : Upper) (p : Path) : Res :=
  match u.stat p with
  | none => (some .enoent, u)
  | some n =>
    if n.entry ≠ .dir then (some .enotdir, u)
    else if u.layer.names p ≠ [] then (some .enotempty, u)
    else (none, { u with layer := u.layer.erase p })

def checkTarget (u : Upper) (isDir : Bool) (p : Path) : Option Errno :=
  match u.stat p with
  | none => none
  | some n =>
    match isDir, decide (n.entry = .dir) with
    | true, true => if u.layer.names p ≠ [] then some .enotempty else none
    | true, false => some .enotdir
    | false, true => some .eisdir
    | false, false => none

def rename (u : Upper) (source target : Path) : Res :=
  u.attempt fun u =>
    match u.stat source with
    | none => (some .enoent, u)
    | some n =>
      if source = target then (none, u)
      else if source <+: target then (some .einval, u)
      else
        match u.stat target.dropLast with
        | none => (some .enoent, u)
        | some d =>
          if d.entry ≠ .dir then (some .enotdir, u)
          else
            match u.checkTarget (n.entry = .dir) target with
            | some e => (some e, u)
            | none => (none, { u with layer := u.layer.move source target })

end Upper

/-! ### The overlay -/

structure Overlay where
  upper : Upper
  lower : Layer
  whiteouts : Path → Bool

/-- What an operation returns: an error, if any. -/
abbrev Res := Option Errno × Overlay

/-- `?`: go on if there was no error. -/
def Res.andThen (r : Res) (f : Overlay → Res) : Res :=
  match r with
  | (none, o) => f o
  | (some e, o) => (some e, o)

namespace Overlay

/-- `is_whited`: a whiteout of its own or of an ancestor hides the path. -/
def isWhited (o : Overlay) (p : Path) : Bool :=
  p.inits.any fun q => o.whiteouts q && (q ≠ [] || p = [])

def stat (o : Overlay) (p : Path) : Option Node :=
  if o.isWhited p then none else (o.upper.stat p).or (o.lower.stat p)

def view (o : Overlay) (p : Path) : Option Entry := (o.stat p).map (·.entry)

def readdir (o : Overlay) (p : Path) : Except Errno (List String) :=
  if o.isWhited p || (o.stat p).isNone then .error .enoent
  else
    .ok (((o.lower.names p).filter fun n => !o.isWhited (p ++ [n])) ++ o.upper.layer.names p).dedup

def onUpper (o : Overlay) (f : Upper → Upper.Res) : Res :=
  ((f o.upper).1, { o with upper := (f o.upper).2 })

/-- `let _ = ...`. -/
def tryUpper (o : Overlay) (f : Upper → Upper.Res) : Overlay := { o with upper := (f o.upper).2 }

def addWhiteout (o : Overlay) (p : Path) : Overlay :=
  { o with whiteouts := fun q => q = p || o.whiteouts q }

def removeWhiteout (o : Overlay) (p : Path) : Overlay :=
  { o with whiteouts := fun q => q ≠ p && o.whiteouts q }

/-- `ensure_dir_in_upper`, on the reversed path: its ancestors first. -/
def ensureDirRev (o : Overlay) : List String → Overlay
  | [] => o
  | n :: rest =>
    let dir := (n :: rest).reverse
    if (o.upper.stat dir).isSome then o
    else (o.ensureDirRev rest).tryUpper fun u => u.make dir .dir 0o755

def ensureDirInUpper (o : Overlay) (dir : Path) : Overlay := o.ensureDirRev dir.reverse

/-- The body of `copy_up`, with what it calls for the entries of a directory. -/
def copyUpStep (copyUp : Overlay → Path → Res) (o : Overlay) (p : Path) : Res :=
  if (o.upper.stat p).isSome then (none, o)
  else
    match o.lower.stat p with
    | none => (none, o)
    | some n =>
      let o := o.ensureDirInUpper p.dropLast
      match n.entry with
      | .dir =>
        (o.lower.names p).foldl (fun r name => r.andThen fun o =>
          if o.isWhited (p ++ [name]) then (none, o) else copyUp o (p ++ [name]))
          (none, o.ensureDirInUpper p)
      | .symlink target => o.onUpper fun u => u.make p (.symlink target) 0o777
      | entry =>
        (o.onUpper fun u => u.make p (.file []) (n.mode % 0o1000)).andThen fun o =>
          o.onUpper fun u => u.modify p fun _ => entry.data

/-- `copy_up`, to a depth that `copyUp` makes large enough. -/
def copyUpTo : Nat → Overlay → Path → Res
  | 0, o, _ => (none, o)
  | fuel + 1, o, p => copyUpStep (copyUpTo fuel) o p

def copyUp (o : Overlay) (p : Path) : Res := copyUpTo (o.lower.depth + 1) o p

/-- `create`, `mkdir`, `mknod` and `symlink`. -/
def make (o : Overlay) (p : Path) (entry : Entry) (mode : Nat) : Res :=
  if (o.stat p).isSome then (some .eexist, o)
  else
    ((o.removeWhiteout p).ensureDirInUpper p.dropLast).onUpper fun u => u.make p entry mode

def create (o : Overlay) (p : Path) (mode : Nat) : Res := o.make p (.file []) mode

def mkdir (o : Overlay) (p : Path) (mode : Nat) : Res := o.make p .dir mode

def mknod (o : Overlay) (p : Path) (kind : Special) (mode : Nat) : Res :=
  o.make p (.special kind) mode

def symlink (o : Overlay) (target : String) (p : Path) : Res := o.make p (.symlink target) 0o777

def link (o : Overlay) (old new : Path) : Res :=
  match o.stat old with
  | none => (some .enoent, o)
  | some n =>
    if n.entry = .dir then (some .eperm, o)
    else if (o.stat new).isSome then (some .eexist, o)
    else
      (o.copyUp old).andThen fun o =>
        ((o.removeWhiteout new).ensureDirInUpper new.dropLast).onUpper fun u => u.link old new

/-- `write_at` and `truncate`. -/
def modify (o : Overlay) (p : Path) (f : List UInt8 → List UInt8) : Res :=
  (o.copyUp p).andThen fun o => o.onUpper fun u => u.modify p f

def resize (data : List UInt8) (len : Nat) : List UInt8 :=
  data.take len ++ List.replicate (len - data.length) 0

def writeAt (o : Overlay) (p : Path) (off : Nat) (buf : List UInt8) : Res :=
  o.modify p fun data =>
    if buf = [] then data else resize data off ++ buf ++ data.drop (off + buf.length)

def truncate (o : Overlay) (p : Path) (len : Nat) : Res := o.modify p fun data => resize data len

def unlink (o : Overlay) (p : Path) : Res :=
  match o.stat p with
  | none => (some .enoent, o)
  | some n =>
    if n.entry = .dir then (some .eisdir, o)
    else (none, (o.tryUpper fun u => u.unlink p).addWhiteout p)

def rmdir (o : Overlay) (p : Path) : Res :=
  match o.stat p with
  | none => (some .enoent, o)
  | some n =>
    if n.entry ≠ .dir then (some .enotdir, o)
    else
      match o.readdir p with
      | .error e => (some e, o)
      | .ok names =>
        if names ≠ [] then (some .enotempty, o)
        else (none, (o.tryUpper fun u => u.rmdir p).addWhiteout p)

def checkTarget (o : Overlay) (isDir : Bool) (p : Path) : Option Errno :=
  match o.stat p with
  | none => none
  | some n =>
    match isDir, decide (n.entry = .dir) with
    | true, true =>
      match o.readdir p with
      | .error e => some e
      | .ok names => if names ≠ [] then some .enotempty else none
    | true, false => some .enotdir
    | false, true => some .eisdir
    | false, false => none

def clearTarget (o : Overlay) (p : Path) : Overlay :=
  match o.stat p with
  | none => o
  | some n =>
    if n.entry = .dir then o.tryUpper fun u => u.rmdir p else o.tryUpper fun u => u.unlink p

def rename (o : Overlay) (source target : Path) : Res :=
  match o.stat source with
  | none => (some .enoent, o)
  | some n =>
    if source = target then (none, o)
    -- `to.starts_with(from/)`, which no path does for the root
    else if n.entry = .dir ∧ source ≠ [] ∧ source <+: target then (some .einval, o)
    else
      match o.checkTarget (n.entry = .dir) target with
      | some e => (some e, o)
      | none =>
        ((o.clearTarget target).copyUp source).andThen fun o =>
          (((o.ensureDirInUpper target.dropLast).removeWhiteout target).onUpper
            fun u => u.rename source target).andThen fun o => (none, o.addWhiteout source)

/-! ### Runs -/

inductive Op
  | create (p : Path) (mode : Nat)
  | mkdir (p : Path) (mode : Nat)
  | mknod (p : Path) (kind : Special) (mode : Nat)
  | symlink (target : String) (p : Path)
  | link (old new : Path)
  | writeAt (p : Path) (off : Nat) (buf : List UInt8)
  | truncate (p : Path) (len : Nat)
  | unlink (p : Path)
  | rmdir (p : Path)
  | rename (source target : Path)

def call (o : Overlay) : Op → Res
  | .create p mode => o.create p mode
  | .mkdir p mode => o.mkdir p mode
  | .mknod p kind mode => o.mknod p kind mode
  | .symlink target p => o.symlink target p
  | .link old new => o.link old new
  | .writeAt p off buf => o.writeAt p off buf
  | .truncate p len => o.truncate p len
  | .unlink p => o.unlink p
  | .rmdir p => o.rmdir p
  | .rename source target => o.rename source target

def step (o : Overlay) (op : Op) : Option Overlay := some (o.call op).2

def rootLayer : Layer where
  stat p := if p = [] then some ⟨.dir, 0o755, 1⟩ else none
  paths := [[]]
  covers p h := by
    by_cases hp : p = []
    · exact hp ▸ .head _
    rw [if_neg hp] at h
    exact absurd rfl h

def init (lower : Layer) (refuse : Nat → Option Errno) : Overlay where
  upper := ⟨rootLayer, 2, refuse, 0⟩
  lower := lower
  whiteouts := fun _ => false

end Overlay

end NixVm.OverlayFs
