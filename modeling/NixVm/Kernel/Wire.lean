/-
Bytes from outside that are walked over: the control messages of `sendmsg` (`src/kernel/net.rs`:
`parse_scm_rights`).

Sums wrap at `2 ^ 64`, as in a release build; `none` is a panic.
-/
import NixVm.Vcpu.Mem

namespace NixVm.Wire

def ofLe (l : List Byte) : Nat := l.foldr (fun b n => b.toNat + 256 * n) 0

/-- The `n` bytes of a number, the lowest first. -/
def toLe : Nat → Nat → List Byte
  | 0, _ => []
  | n + 1, v => BitVec.ofNat 8 v :: toLe n (v / 256)

def slice (buf : List Byte) (start stop : Nat) : Option (List Byte) :=
  if start ≤ stop ∧ stop ≤ buf.length then some (buf.extract start stop) else none

def cmsgAlign (len : Nat) : Nat := u64 (len + 7) / 8 * 8

/-- The numbers in a message's data; what is left over is ignored. -/
def fdsIn : List Byte → List (BitVec 32)
  | a :: b :: c :: d :: l => .ofNat 32 (ofLe [a, b, c, d]) :: fdsIn l
  | _ => []

/-- A turn of the loop: what it returns, or where it goes on. -/
def turn (buf : List Byte) (off : Nat) (fds : List (BitVec 32)) :
    Option (List (BitVec 32) ⊕ Nat × List (BitVec 32)) :=
  if buf.length < u64 (off + 16) then some (.inl fds)
  else do
    let cmsgLen := ofLe (← slice buf off (u64 (off + 8)))
    let level := ofLe (← slice buf (u64 (off + 8)) (u64 (off + 12)))
    let ctype := ofLe (← slice buf (u64 (off + 12)) (u64 (off + 16)))
    if cmsgLen < 16 ∨ buf.length < u64 (off + cmsgLen) then some (.inl fds)
    else do
      let data ← if level = 1 ∧ ctype = 1 then slice buf (u64 (off + 16)) (u64 (off + cmsgLen))
        else some []
      some (.inr (u64 (off + max (cmsgAlign cmsgLen) 16), fds ++ fdsIn data))

inductive Outcome
  | returns (r : Option (List (BitVec 32)))
  | panics
  | runsOn

def scan (buf : List Byte) : Nat → Nat → List (BitVec 32) → Outcome
  | 0, _, _ => .runsOn
  | fuel + 1, off, fds =>
    match turn buf off fds with
    | none => .panics
    | some (.inl fds) => .returns (some fds)
    | some (.inr (off, fds)) => scan buf fuel off fds

/-- `read` is what reading the buffer gives. -/
def parseScmRights (fuel control controllen : Nat) (read : Option (List Byte)) : Outcome :=
  if control = 0 ∨ controllen < 16 then .returns (some [])
  else match read with
  | none => .returns none
  | some buf => scan buf fuel 0 []

def rights (fds : List (BitVec 32)) : List Byte := toLe 8 (16 + 4 * fds.length) ++ (toLe 4 1 ++
  (toLe 4 1 ++ fds.flatMap fun g => toLe 4 g.toNat))

/-- The message `emit_scm_rights` writes for new descriptors `fds`, and whether some were left
out. -/
def emitScmRights (control controllen : Nat) (fds : List (BitVec 32)) : List Byte × Bool :=
  let capacity := if control ≠ 0 ∧ 16 ≤ controllen then (controllen - 16) / 4 else 0
  let deliver := min capacity fds.length
  let guestFds := fds.take deliver
  (if deliver = 0 then [] else rights guestFds, deliver < fds.length)

end NixVm.Wire
