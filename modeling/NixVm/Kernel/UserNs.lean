/-
User namespaces: the id maps, and who owns what (`src/kernel/userns.rs`).

Namespace 0 is the initial one and has no entry. A map is written once, as text. The loop over the
parents of a namespace gets as many turns as namespaces may be deep; `Proofs/UserNs.lean` shows
that these are enough.
-/
import NixVm.Lib.Text
import NixVm.Kernel.Errno

namespace NixVm

open Text

namespace UserNs

def overflowId : Nat := 65534
def maxDepth : Nat := 32
def maxExtents : Nat := 340
/-- The largest id, `u32::MAX`. -/
def topId : Nat := 4294967295

inductive IdKind
  | uid
  | gid
  deriving DecidableEq

/-- One line of a map: `count` ids from `inside` on are those from `outside` on in the parent. -/
structure Extent where
  inside : Nat
  outside : Nat
  count : Nat
  deriving DecidableEq

abbrev IdMap := Option (List Extent)

def toOutside (es : List Extent) (id : Nat) : Option Nat :=
  es.findSome? fun e =>
    if e.inside ≤ id ∧ id - e.inside < e.count then some (e.outside + (id - e.inside)) else none

def toInside (es : List Extent) (id : Nat) : Option Nat :=
  es.findSome? fun e =>
    if e.outside ≤ id ∧ id - e.outside < e.count then some (e.inside + (id - e.outside)) else none

structure Entry where
  parent : Nat
  uids : IdMap
  gids : IdMap
  setgroupsDenied : Bool
  /-- The creator's ids in the parent namespace. -/
  creatorUid : Nat
  creatorGid : Nat

def Entry.ids (e : Entry) : IdKind → IdMap
  | .uid => e.uids
  | .gid => e.gids

def Entry.creator (e : Entry) : IdKind → Nat
  | .uid => e.creatorUid
  | .gid => e.creatorGid

def Entry.setIds (e : Entry) (kind : IdKind) (es : List Extent) : Entry :=
  match kind with
  | .uid => { e with uids := some es }
  | .gid => { e with gids := some es }

/-- The user namespaces but the initial one, and which owns each namespace of another kind. -/
structure Table where
  entry : Nat → Option Entry
  owners : Nat → Option Nat

def Table.init : Table := ⟨fun _ => none, fun _ => none⟩

def Table.insert (t : Table) (ns : Nat) (e : Entry) : Table :=
  { t with entry := fun m => if m = ns then some e else t.entry m }

/-- `ns` and its parents, as far as `fuel` turns of the loop go. -/
def Table.chainFrom (t : Table) : Nat → Nat → List Nat
  | 0, _ => []
  | fuel + 1, ns =>
    match t.entry ns with
    | none => []
    | some e => ns :: t.chainFrom fuel e.parent

def Table.chain (t : Table) (ns : Nat) : List Nat := t.chainFrom maxDepth ns

/-- Record a new namespace nested in `parent`, unless that is too deep. -/
def Table.create (t : Table) (ns parent creatorUid creatorGid : Nat) : Except Errno Table :=
  if maxDepth ≤ (t.chain parent).length + 1 then .error .enospc
  else
    let denied := match t.entry parent with
      | none => false
      | some p => p.setgroupsDenied
    .ok (t.insert ns ⟨parent, none, none, denied, creatorUid, creatorGid⟩)

def Table.isWithin (t : Table) (inner outer : Nat) : Bool :=
  outer = 0 || inner = outer || (t.chain inner).contains outer

def Table.owner (t : Table) (ns : Nat) : Nat := (t.owners ns).getD 0

def Table.ids (t : Table) (ns : Nat) (kind : IdKind) : Option (List Extent) :=
  (t.entry ns).bind fun e => e.ids kind

def Table.toGlobal (t : Table) (ns : Nat) (kind : IdKind) (id : Nat) : Option Nat :=
  (t.chain ns).foldlM (fun id level => (t.ids level kind).bind fun es => toOutside es id) id

def Table.isMapped (t : Table) (ns : Nat) (kind : IdKind) (id : Nat) : Bool :=
  (t.toGlobal ns kind id).isSome

def Table.seenFromGlobal (t : Table) (ns : Nat) (kind : IdKind) (id : Nat) : Nat :=
  ((t.chain ns).reverse.foldlM
    (fun id level => (t.ids level kind).bind fun es => toInside es id) id).getD overflowId

/-- One line, `inside outside count`. -/
def parseLine (line : Str) : Option Extent :=
  match words line with
  | [a, b, c] =>
    match u32? a, u32? b, u32? c with
    | some inside, some outside, some count =>
      if count = 0 ∨ topId < inside + (count - 1) then none
      else some ⟨inside, outside, count⟩
    | _, _, _ => none
  | _ => none

def saturatingAdd (a b : Nat) : Nat := min (a + b) topId

def overlaps (a n b m : Nat) : Bool := a < saturatingAdd b m && b < saturatingAdd a n

def clash (e f : Extent) : Bool :=
  overlaps e.inside e.count f.inside f.count || overlaps e.outside e.count f.outside f.count

/-- The lines of a map, checked for overlap. Carriage returns are white space. -/
def parseExtents (text : Str) : Except Errno (List Extent) :=
  match (inkedLines text).mapM parseLine with
  | none => .error .einval
  | some es =>
    if es = [] ∨ maxExtents < es.length then .error .einval
    else if es.Pairwise fun f e => clash e f = false then .ok es
    else .error .einval

def Table.endsMapped (t : Table) (parent : Nat) (kind : IdKind) (e : Extent) : Except Errno Unit :=
  if topId < e.outside + (e.count - 1) then .error .einval
  else if t.isMapped parent kind e.outside && t.isMapped parent kind (e.outside + (e.count - 1)) then
    .ok ()
  else .error .eperm

/-- The one line an unprivileged writer may write: its creator's own id. -/
def Entry.onlyOwn (entry : Entry) (kind : IdKind) : List Extent → Bool
  | [e] => e.count = 1 && e.outside = entry.creator kind
  | _ => false

/-- Groups may be mapped without privilege only once they cannot be dropped. -/
def Entry.groupsOk (entry : Entry) (kind : IdKind) : Bool := kind = .uid || entry.setgroupsDenied

def Table.writeMap (t : Table) (ns : Nat) (kind : IdKind) (text : Str)
    (privilegedInParent : Bool) : Except Errno Table :=
  match parseExtents text with
  | .error e => .error e
  | .ok es =>
    match t.entry ns with
    | none => .error .eperm
    | some entry =>
      if (entry.ids kind).isSome then .error .eperm
      else
        if !privilegedInParent && !(entry.onlyOwn kind es && entry.groupsOk kind) then .error .eperm
        else
          match es.forM (t.endsMapped entry.parent kind) with
          | .error e => .error e
          | .ok _ => .ok (t.insert ns (entry.setIds kind es))

/-- Write `/proc/<pid>/setgroups`. -/
def Table.writeSetgroups (t : Table) (ns : Nat) (text : Str) : Except Errno Table :=
  match t.entry ns with
  | none => .error .eperm
  | some entry =>
    if trim text = "deny".toList then .ok (t.insert ns { entry with setgroupsDenied := true })
    else if trim text = "allow".toList then
      if !entry.setgroupsDenied && entry.gids.isNone then .ok t else .error .eperm
    else .error .einval

/-- Forget namespaces nothing refers to any more; `keys` are those that have an entry. -/
def Table.collectGarbage (t : Table) (keys inUse : List Nat) : Table :=
  let parents := keys.filterMap fun k => (t.entry k).map Entry.parent
  ⟨fun m => if m ∈ inUse ∨ m ∈ parents then t.entry m else none,
    fun ns => if ns ∈ inUse then t.owners ns else none⟩

inductive Op
  | create (ns parent creatorUid creatorGid : Nat)
  | writeMap (ns : Nat) (kind : IdKind) (text : Str) (privilegedInParent : Bool)

def Table.apply (t : Table) : Op → Except Errno Table
  | .create ns parent uid gid => t.create ns parent uid gid
  | .writeMap ns kind text privileged => t.writeMap ns kind text privileged

/-- A call that succeeds and meets the condition `can`.  One that fails changes nothing. -/
def Table.Next (can : Table → Op → Prop) (t t' : Table) : Prop :=
  ∃ op, can t op ∧ t.apply op = .ok t'

end UserNs

end NixVm
