/-
The in-memory file system (`src/fs/tmpfs.rs`), charged to a quota.

The source keeps a map from path strings to nodes. A path here is the list of its components, `[]`
for the root, so that the parent of a path drops the last one. The empty string is a prefix of
every string only with its separator left out: nothing is below the root as `rename` looks for it.

What the host's allocator does is part of a call: whether a file's buffer can be grown, and by how
much more than asked for. All files of a file system are charged to its own quota, which is
therefore written once.
-/
import NixVm.Fs.Quota
import NixVm.Kernel.Errno
import NixVm.Lib.Run
import NixVm.Lib.Weight

namespace NixVm.Tmpfs

abbrev Path := List String

def Path.len (p : Path) : Nat := (p.map String.utf8ByteSize).sum + (p.length - 1)

def parentOf (p : Path) : Path := p.dropLast

/-- Whether the path string starts with that of `dir` and a separator. -/
def below (dir p : Path) : Bool := dir ≠ [] && dir.isPrefixOf p && p ≠ dir

abbrev Xattrs := Assoc String (List UInt8)

def nodeOverhead : Nat := 256

def maxFileSize : Nat := 2 ^ 63 - 1

def xattrEntry (name : String) (value : List UInt8) : Nat :=
  name.utf8ByteSize + value.length + nodeOverhead

def xattrCost (x : Xattrs) : Nat := Assoc.weight xattrEntry x

/-- What is in the buffer, how large it is, and how many names lead to the file. -/
structure FileData where
  xattrs : Xattrs
  data : List UInt8
  capacity : Nat
  links : Nat

inductive Node
  | dir (inode : Nat) (xattrs : Xattrs)
  | file (ino : Nat)
  | fifo (inode : Nat) (xattrs : Xattrs)
  | symlink (inode : Nat) (xattrs : Xattrs) (target : String)

def Node.isDir : Node → Bool
  | .dir .. => true
  | _ => false

def Node.isFile (ino : Nat) : Node → Bool
  | .file i => i = ino
  | _ => false

def FileData.cost (f : FileData) : Nat := f.capacity + xattrCost f.xattrs

def nodeCost (rel : Path) (node : Node) : Nat :=
  nodeOverhead + Path.len rel +
    match node with
    | .file _ => 0
    | .dir _ x | .fifo _ x => xattrCost x
    | .symlink _ x target => target.utf8ByteSize + xattrCost x

structure Fs where
  nodes : Assoc Path Node
  files : Assoc Nat FileData
  nextInode : Nat
  quota : Quota

abbrev Res (α : Type) := Except Errno α × Fs

namespace Fs

/-- `TmpFs::new`: the root is there and charged to nothing. -/
def new : Fs where
  nodes := (∅ : Assoc Path Node).insert [] (.dir 1 ∅)
  files := ∅
  nextInode := 2
  quota := ⟨2 ^ 64 - 1, 0⟩

def nodesCost (fs : Fs) : Nat := Assoc.weight nodeCost fs.nodes
def filesCost (fs : Fs) : Nat := Assoc.weight (fun _ f => f.cost) fs.files

/-- `attach_quota`: everything is charged to the other quota. -/
def attachQuota (fs : Fs) (quota : Quota) : Fs :=
  { fs with quota := (quota.forceCharge fs.nodesCost).forceCharge fs.filesCost }

/-- What dropping the file system leaves of its quota: each file gives its charge back. -/
def drop (fs : Fs) : Quota := fs.quota.release fs.filesCost

/-! ### Nodes -/

def get (fs : Fs) (rel : Path) : Option Node := fs.nodes.lookup rel

def newFile (fs : Fs) : Nat × Fs :=
  (fs.nextInode, { fs with
    files := fs.files.insert fs.nextInode ⟨∅, [], 0, 1⟩
    nextInode := fs.nextInode + 1 })

def newMeta (fs : Fs) : Nat × Fs := (fs.nextInode, { fs with nextInode := fs.nextInode + 1 })

def insertNode (fs : Fs) (rel : Path) (node : Node) : Res Unit :=
  match fs.quota.tryCharge (nodeCost rel node) with
  | none => (.error .enospc, fs)
  | some quota => (.ok (), { fs with nodes := fs.nodes.insert rel node, quota := quota })

def removeFile (fs : Fs) (ino : Nat) : Fs :=
  match fs.files.lookup ino with
  | none => fs
  | some f => { fs with files := fs.files.erase ino, quota := fs.quota.release f.cost }

/-- `-= 1` and `+= 1` on a `u32`, as the release build has them. -/
def dec32 (n : Nat) : Nat := if n = 0 then 2 ^ 32 - 1 else n - 1
def inc32 (n : Nat) : Nat := if n + 1 = 2 ^ 32 then 0 else n + 1

def dropLink (fs : Fs) (ino : Nat) : Fs :=
  match fs.files.lookup ino with
  | none => fs
  | some f =>
    let fs := { fs with files := fs.files.insert ino { f with links := dec32 f.links } }
    if dec32 f.links = 0 then fs.removeFile ino else fs

def eraseNode (fs : Fs) (rel : Path) (node : Node) : Fs :=
  { fs with nodes := fs.nodes.erase rel, quota := fs.quota.release (nodeCost rel node) }

def removeEntry (fs : Fs) (rel : Path) : Fs :=
  match fs.get rel with
  | none => fs
  | some (.file ino) => (fs.eraseNode rel (.file ino)).dropLink ino
  | some node => fs.eraseNode rel node

def ancestorsAreDirs (fs : Fs) (rel : Path) : Except Errno Unit :=
  if (parentOf rel).inits.tail.all (fun p => (fs.get p).all Node.isDir) then .ok ()
  else .error .enotdir

def requireParent (fs : Fs) (rel : Path) : Except Errno Unit :=
  match fs.ancestorsAreDirs rel with
  | .error e => .error e
  | .ok _ =>
    match fs.get (parentOf rel) with
    | some (.dir ..) => .ok ()
    | some _ => .error .enotdir
    | none => .error .enoent

/-! ### Creating -/

/-- What `create`, `mkdir`, `mknod`, `symlink` and `link` check first. -/
def checkNew (fs : Fs) (rel : Path) : Except Errno Unit :=
  match fs.requireParent rel with
  | .error e => .error e
  | .ok _ => if (fs.get rel).isSome then .error .eexist else .ok ()

def create (fs : Fs) (rel : Path) : Res Unit :=
  match fs.checkNew rel with
  | .error e => (.error e, fs)
  | .ok _ =>
    let (ino, fs) := fs.newFile
    match fs.insertNode rel (.file ino) with
    | (.error e, fs) => (.error e, fs.removeFile ino)
    | (.ok _, fs) => (.ok (), fs)

def mkdir (fs : Fs) (rel : Path) : Res Unit :=
  match fs.checkNew rel with
  | .error e => (.error e, fs)
  | .ok _ =>
    let (inode, fs) := fs.newMeta
    fs.insertNode rel (.dir inode ∅)

inductive NodType
  | regular
  | fifo
  | other
  deriving DecidableEq

def nodType (mode : BitVec 32) : NodType :=
  let typ := mode &&& 0o170000#32
  if typ = 0#32 ∨ typ = 0o100000#32 then .regular
  else if typ = 0o010000#32 then .fifo
  else .other

def mknod (fs : Fs) (rel : Path) (mode : BitVec 32) : Res Unit :=
  match nodType mode with
  | .other => (.error .eperm, fs)
  | .regular => fs.create rel
  | .fifo =>
    match fs.checkNew rel with
    | .error e => (.error e, fs)
    | .ok _ =>
      let (inode, fs) := fs.newMeta
      fs.insertNode rel (.fifo inode ∅)

def symlink (fs : Fs) (target : String) (rel : Path) : Res Unit :=
  match fs.checkNew rel with
  | .error e => (.error e, fs)
  | .ok _ =>
    let (inode, fs) := fs.newMeta
    fs.insertNode rel (.symlink inode ∅ target)

def addLink (fs : Fs) (ino : Nat) : Fs :=
  match fs.files.lookup ino with
  | none => fs
  | some f => { fs with files := fs.files.insert ino { f with links := inc32 f.links } }

def link (fs : Fs) (old new : Path) : Res Unit :=
  match fs.get old with
  | some (.file ino) =>
    match fs.checkNew new with
    | .error e => (.error e, fs)
    | .ok _ =>
      match fs.insertNode new (.file ino) with
      | (.error e, fs) => (.error e, fs)
      | (.ok _, fs) => (.ok (), fs.addLink ino)
  | some (.dir ..) => (.error .eperm, fs)
  | some _ => (.error .eopnotsupp, fs)
  | none => (.error .enoent, fs)

/-! ### Removing -/

def unlink (fs : Fs) (rel : Path) : Res Unit :=
  match fs.ancestorsAreDirs rel with
  | .error e => (.error e, fs)
  | .ok _ =>
    match fs.get rel with
    | some (.dir ..) => (.error .eisdir, fs)
    | some _ => (.ok (), fs.removeEntry rel)
    | none => (.error .enoent, fs)

def hasChild (fs : Fs) (rel : Path) : Bool :=
  fs.nodes.keys.any fun k => parentOf k = rel && k ≠ []

def rmdir (fs : Fs) (rel : Path) : Res Unit :=
  match fs.ancestorsAreDirs rel with
  | .error e => (.error e, fs)
  | .ok _ =>
    match fs.get rel with
    | some (.dir ..) =>
      if fs.hasChild rel then (.error .enotempty, fs) else (.ok (), fs.removeEntry rel)
    | some _ => (.error .enotdir, fs)
    | none => (.error .enoent, fs)

/-! ### Contents -/

/-- `grow_file`: make room for `len` bytes, and charge for it. -/
def growFile (q : Quota) (f : FileData) (len : Nat) (alloc : Option Nat) :
    Except Errno FileData × Quota :=
  if len ≤ f.capacity then (.ok f, q)
  else
    let wanted := max len (f.capacity * 2)
    let charged : Option (Nat × Quota) :=
      match q.tryCharge (wanted - f.capacity) with
      | some q => some (wanted, q)
      | none => (q.tryCharge (len - f.capacity)).map fun q => (len, q)
    match charged with
    | none => (.error .enospc, q)
    | some (target, q) =>
      match alloc with
      | none => (.error .enospc, q.release (target - f.capacity))
      | some more => (.ok { f with capacity := target + more }, q.forceCharge more)

def resize (data : List UInt8) (len : Nat) : List UInt8 :=
  data.take len ++ List.replicate (len - data.length) 0

def setFile (fs : Fs) (ino : Nat) (f : FileData) (q : Quota) : Fs :=
  { fs with files := fs.files.insert ino f, quota := q }

def fileOf (fs : Fs) (rel : Path) : Except Errno (Nat × FileData) :=
  match fs.get rel with
  | some (.file ino) =>
    match fs.files.lookup ino with
    | some f => .ok (ino, f)
    | none => .error .enoent
  | some (.dir ..) => .error .eisdir
  | some _ => .error .einval
  | none => .error .enoent

/-- `write_at`, which has `EISDIR` for everything that is not a file. -/
def writeAt (fs : Fs) (rel : Path) (off : Nat) (buf : List UInt8) (alloc : Option Nat) :
    Res Nat :=
  match fs.fileOf rel with
  | .error e => (.error (if e = .einval then .eisdir else e), fs)
  | .ok (ino, f) =>
    let stop := off + buf.length
    let put (f : FileData) : FileData :=
      { f with data := f.data.take off ++ buf ++ f.data.drop stop }
    if maxFileSize < stop then (.error .efbig, fs)
    else if f.data.length < stop then
      match growFile fs.quota f stop alloc with
      | (.error e, q) => (.error e, { fs with quota := q })
      | (.ok f, q) => (.ok buf.length, fs.setFile ino (put { f with data := resize f.data stop }) q)
    else (.ok buf.length, fs.setFile ino (put f) fs.quota)

/-- `truncate`. A buffer more than twice as large as needed is given back. -/
def truncate (fs : Fs) (rel : Path) (len : Nat) (alloc : Option Nat) (slack : Nat) :
    Res Unit :=
  match fs.fileOf rel with
  | .error e => (.error e, fs)
  | .ok (ino, f) =>
    if maxFileSize < len then (.error .efbig, fs)
    else
      match growFile fs.quota f len alloc with
      | (.error e, q) => (.error e, { fs with quota := q })
      | (.ok f, q) =>
        let f := { f with data := resize f.data len }
        if len < f.capacity / 2 then
          let kept := min f.capacity (len + slack)
          (.ok (), fs.setFile ino { f with capacity := kept } (q.release (f.capacity - kept)))
        else (.ok (), fs.setFile ino f q)

/-! ### Extended attributes -/

def xattrsAt (fs : Fs) (rel : Path) : Option (Xattrs × (Xattrs → Fs)) :=
  match fs.get rel with
  | none => none
  | some (.file ino) =>
    (fs.files.lookup ino).map fun f =>
      (f.xattrs, fun x => { fs with files := fs.files.insert ino { f with xattrs := x } })
  | some (.dir inode x) =>
    some (x, fun x => { fs with nodes := fs.nodes.insert rel (.dir inode x) })
  | some (.fifo inode x) =>
    some (x, fun x => { fs with nodes := fs.nodes.insert rel (.fifo inode x) })
  | some (.symlink inode x target) =>
    some (x, fun x => { fs with nodes := fs.nodes.insert rel (.symlink inode x target) })

def setxattr (fs : Fs) (rel : Path) (name : String) (value : List UInt8) : Res Unit :=
  match fs.xattrsAt rel with
  | none => (.error .enoent, fs)
  | some (x, put) =>
    match fs.quota.tryCharge (xattrEntry name value) with
    | none => (.error .enospc, fs)
    | some q =>
      let q := match x.lookup name with
        | some old => q.release (xattrEntry name old)
        | none => q
      (.ok (), { put (x.insert name value) with quota := q })

def removexattr (fs : Fs) (rel : Path) (name : String) : Res Unit :=
  match fs.xattrsAt rel with
  | none => (.error .enoent, fs)
  | some (x, put) =>
    match x.lookup name with
    | none => (.error .enodata, fs)
    | some old =>
      (.ok (), { put (x.erase name) with quota := fs.quota.release (xattrEntry name old) })

/-! ### Renaming -/

def newKey (source target key : Path) : Path := target ++ key.drop source.length

def moveKey (source target : Path) (fs : Fs) (key : Path) : Fs :=
  { fs with
    nodes := Assoc.move (newKey source target) fs.nodes key
    quota := (fs.quota.forceCharge (Path.len (newKey source target key))).release
      (Path.len key) }

def movedKeys (fs : Fs) (source : Path) : List Path :=
  fs.nodes.keys.filter fun k => k = source || below source k

def sameFile (fs : Fs) (a b : Path) : Bool :=
  match fs.get a, fs.get b with
  | some (.file i), some (.file j) => i = j
  | _, _ => false

def replaceTarget (fs : Fs) (sourceIsDir : Bool) (target : Path) : Except Errno Fs :=
  match fs.get target with
  | none => .ok fs
  | some node =>
    match sourceIsDir, node.isDir with
    | true, true =>
      if fs.nodes.keys.any (fun k => parentOf k = target) then .error .enotempty
      else .ok (fs.removeEntry target)
    | true, false => .error .enotdir
    | false, true => .error .eisdir
    | false, false => .ok (fs.removeEntry target)

def rename (fs : Fs) (source target : Path) : Res Unit :=
  if source = target then
    if (fs.get source).isSome then (.ok (), fs) else (.error .enoent, fs)
  else
    match fs.get source with
    | none => (.error .enoent, fs)
    | some node =>
      if fs.sameFile source target then (.ok (), fs)
      else if node.isDir ∧ below source target then (.error .einval, fs)
      else
        match fs.requireParent target with
        | .error e => (.error e, fs)
        | .ok _ =>
          match fs.replaceTarget node.isDir target with
          | .error e => (.error e, fs)
          | .ok fs => (.ok (), (fs.movedKeys source).foldl (moveKey source target) fs)

end Fs

/-! ### Calls -/

inductive Op
  | create (rel : Path)
  | mkdir (rel : Path)
  | mknod (rel : Path) (mode : BitVec 32)
  | symlink (target : String) (rel : Path)
  | link (old new : Path)
  | unlink (rel : Path)
  | rmdir (rel : Path)
  | writeAt (rel : Path) (off : Nat) (buf : List UInt8) (alloc : Option Nat)
  | truncate (rel : Path) (len : Nat) (alloc : Option Nat) (slack : Nat)
  | setxattr (rel : Path) (name : String) (value : List UInt8)
  | removexattr (rel : Path) (name : String)
  | rename (source target : Path)

/-- The file system after a call, whether it went through or not. -/
def Fs.perform (fs : Fs) : Op → Fs
  | .create rel => (fs.create rel).2
  | .mkdir rel => (fs.mkdir rel).2
  | .mknod rel mode => (fs.mknod rel mode).2
  | .symlink target rel => (fs.symlink target rel).2
  | .link old new => (fs.link old new).2
  | .unlink rel => (fs.unlink rel).2
  | .rmdir rel => (fs.rmdir rel).2
  | .writeAt rel off buf alloc => (fs.writeAt rel off buf alloc).2
  | .truncate rel len alloc slack => (fs.truncate rel len alloc slack).2
  | .setxattr rel name value => (fs.setxattr rel name value).2
  | .removexattr rel name => (fs.removexattr rel name).2
  | .rename source target => (fs.rename source target).2

structure Mounted where
  fs : Fs
  others : Nat

inductive Event
  | call (op : Op)
  /-- Others charge the quota or give charges back, or its limit changes. -/
  | outside (used limit : Nat)
  | attach (quota : Quota)

def Mounted.step (m : Mounted) : Event → Option Mounted
  | .call op => some { m with fs := m.fs.perform op }
  | .outside used limit =>
    some ⟨{ m.fs with quota := ⟨limit, m.fs.quota.used - m.others + used⟩ }, used⟩
  | .attach quota => some ⟨m.fs.attachQuota quota, quota.used⟩

def Mounted.init (quota : Quota) : Mounted := ⟨Fs.new.attachQuota quota, quota.used⟩

def Mounted.Reach (can : Mounted → Event → Prop) (m : Mounted) : Prop :=
  ∃ quota, Run.Reach Mounted.step can (Mounted.init quota) m

end NixVm.Tmpfs
