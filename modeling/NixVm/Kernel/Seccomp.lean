/-
seccomp (`src/kernel/seccomp.rs`): classic-BPF filters, their validation, the verdict over all
filters of a task, and the calls that install them.

A jump only goes forward, so a program is run by recursion on what is left of it, with a count of
the instructions to skip. What the guest's memory holds where a `sock_fprog` is read is part of a
call: `none` where it cannot be read.

`installed` is not a field of the source. It is the history of a task: the programs it installed
itself, and the filters its parent had when it was created, however the parent came by them.
-/
import NixVm.Kernel.Errno

namespace NixVm.Seccomp

inductive Mode
  | disabled
  | strict
  | filter
  deriving DecidableEq

def retKillThread : BitVec 32 := 0x00000000#32
def retAllow : BitVec 32 := 0x7fff0000#32
def retActionFull : BitVec 32 := 0xffff0000#32

def bpfMaxInsns : Nat := 4096
/-- The size of `struct seccomp_data`. -/
def dataLen : Nat := 64

structure Insn where
  code : BitVec 16
  jt : Nat
  jf : Nat
  k : BitVec 32
  deriving DecidableEq

abbrev Prog := List Insn

/-! ### Validation -/

/-- Whether the instruction at `pc` may be run. -/
def Insn.valid (i : Insn) (pc len : Nat) : Bool :=
  match i.code.toNat with
  | 0x00 | 0x01 | 0x80 | 0x81 | 0x04 | 0x14 | 0x24 | 0x44 | 0x54 | 0x64 | 0x74 | 0xa4
  | 0x0c | 0x1c | 0x2c | 0x3c | 0x4c | 0x5c | 0x6c | 0x7c | 0x9c | 0xac | 0x84 | 0x06
  | 0x16 | 0x07 | 0x87 => true
  | 0x20 => i.k.toNat % 4 = 0 && i.k.toNat < dataLen
  | 0x60 | 0x61 | 0x02 | 0x03 => i.k.toNat < 16
  | 0x34 | 0x94 => i.k.toNat ≠ 0
  | 0x05 => pc + 1 + i.k.toNat < len
  | 0x15 | 0x25 | 0x35 | 0x45 | 0x1d | 0x2d | 0x3d | 0x4d =>
    pc + 1 + i.jt < len && pc + 1 + i.jf < len
  | _ => false

def validate (prog : Prog) : Bool :=
  prog ≠ [] && prog.length ≤ bpfMaxInsns &&
  (prog.zipIdx.all fun ip => ip.1.valid ip.2 prog.length) &&
  (match prog.getLast? with
    | some i => i.code = 0x06#16 || i.code = 0x16#16
    | none => false)

/-! ### Running a filter -/

/-- What a filter looks at: the call, where it was made, and its arguments. -/
structure Data where
  nr : BitVec 32
  arch : BitVec 32
  pc : BitVec 64
  args : Nat → BitVec 64

def Data.word (d : Data) (k : Nat) : BitVec 32 :=
  if k = 0 then d.nr
  else if k = 4 then d.arch
  else if k = 8 then d.pc.extractLsb' 0 32
  else if k = 12 then d.pc.extractLsb' 32 32
  else if (k - 16) % 8 = 0 then (d.args ((k - 16) / 8)).extractLsb' 0 32
  else (d.args ((k - 16) / 8)).extractLsb' 32 32

structure Regs where
  a : BitVec 32
  x : BitVec 32
  m : Nat → BitVec 32

/-- What an instruction does: return, or go on after skipping some. -/
inductive Flow
  | ret (v : BitVec 32)
  | next (skip : Nat) (r : Regs)

def Insn.step (i : Insn) (d : Data) (r : Regs) : Flow :=
  let src := if i.code &&& 0x08#16 ≠ 0#16 then r.x else i.k
  let seta v := Flow.next 0 { r with a := v }
  let setx v := Flow.next 0 { r with x := v }
  match i.code.toNat with
  | 0x00 => seta i.k
  | 0x01 => setx i.k
  | 0x20 => seta (d.word i.k.toNat)
  | 0x80 => seta (BitVec.ofNat 32 dataLen)
  | 0x81 => setx (BitVec.ofNat 32 dataLen)
  | 0x60 => seta (r.m i.k.toNat)
  | 0x61 => setx (r.m i.k.toNat)
  | 0x02 => .next 0 { r with m := fun n => if n = i.k.toNat then r.a else r.m n }
  | 0x03 => .next 0 { r with m := fun n => if n = i.k.toNat then r.x else r.m n }
  | 0x04 | 0x0c => seta (r.a + src)
  | 0x14 | 0x1c => seta (r.a - src)
  | 0x24 | 0x2c => seta (r.a * src)
  | 0x34 | 0x3c => seta (if src = 0#32 then 0#32 else r.a / src)
  | 0x94 | 0x9c => seta (if src = 0#32 then 0#32 else r.a % src)
  | 0x44 | 0x4c => seta (r.a ||| src)
  | 0x54 | 0x5c => seta (r.a &&& src)
  | 0x64 | 0x6c => seta (if src.toNat < 32 then r.a <<< src.toNat else 0#32)
  | 0x74 | 0x7c => seta (if src.toNat < 32 then r.a >>> src.toNat else 0#32)
  | 0xa4 | 0xac => seta (r.a ^^^ src)
  | 0x84 => seta (-r.a)
  | 0x05 => .next i.k.toNat r
  | 0x15 | 0x1d => .next (if r.a = src then i.jt else i.jf) r
  | 0x25 | 0x2d => .next (if src < r.a then i.jt else i.jf) r
  | 0x35 | 0x3d => .next (if src ≤ r.a then i.jt else i.jf) r
  | 0x45 | 0x4d => .next (if r.a &&& src ≠ 0#32 then i.jt else i.jf) r
  | 0x06 => .ret i.k
  | 0x16 => .ret r.a
  | 0x07 => setx r.a
  | 0x87 => seta r.x
  | _ => .ret retKillThread

def runFrom (d : Data) : Prog → Nat → Regs → BitVec 32
  | [], _, _ => retKillThread
  | _ :: rest, skip + 1, r => runFrom d rest skip r
  | i :: rest, 0, r =>
    match i.step d r with
    | .ret v => v
    | .next skip r => runFrom d rest skip r

def Regs.init : Regs := ⟨0#32, 0#32, fun _ => 0#32⟩

def run (prog : Prog) (d : Data) : BitVec 32 := runFrom d prog 0 Regs.init

/-! ### The loop by program counter

`run` above has one value for every way out.  `trace` is the loop as the source writes it,
one turn per unit of fuel, and tells them apart. -/

/-- The accesses of the instruction lie inside `data` and `m`: the source's indexing does not
panic. -/
def Insn.inBounds (i : Insn) : Bool :=
  match i.code.toNat with
  | 0x20 => i.k.toNat + 4 ≤ dataLen
  | 0x60 | 0x61 | 0x02 | 0x03 => i.k.toNat < 16
  | _ => true

/-- The codes `run` has an arm for. -/
def opcodes : List Nat :=
  [0x00, 0x01, 0x20, 0x80, 0x81, 0x60, 0x61, 0x02, 0x03, 0x04, 0x0c, 0x14, 0x1c, 0x24, 0x2c,
   0x34, 0x3c, 0x94, 0x9c, 0x44, 0x4c, 0x54, 0x5c, 0x64, 0x6c, 0x74, 0x7c, 0xa4, 0xac, 0x84,
   0x05, 0x15, 0x1d, 0x25, 0x2d, 0x35, 0x3d, 0x45, 0x4d, 0x06, 0x16, 0x07, 0x87]

inductive Outcome
  | ret (pc : Nat) (v : BitVec 32)
  | unknownOpcode
  | fellOff
  | panicked
  deriving DecidableEq

/-- The loop from `pc`; `none` if it is still running after so many turns. -/
def trace (prog : Prog) (d : Data) : Nat → Nat → Regs → Option Outcome
  | 0, _, _ => none
  | turns + 1, pc, r =>
    match prog[pc]? with
    | none => some .fellOff
    | some i =>
      if !i.inBounds then some .panicked
      else if i.code.toNat ∉ opcodes then some .unknownOpcode
      else
        match i.step d r with
        | .ret v => some (.ret pc v)
        | .next skip r => trace prog d turns (pc + 1 + skip) r

/-! ### The verdict -/

structure State where
  mode : Mode
  /-- Installed filters, oldest first. -/
  filters : List Prog

def State.default : State := ⟨.disabled, []⟩

/-- How restrictive a return value is: its action, as a signed number. -/
def action (r : BitVec 32) : Int := (r &&& retActionFull).toInt

def mostRestrictive : List (BitVec 32) → Option (BitVec 32)
  | [] => none
  | r :: rs =>
    match mostRestrictive rs with
    | none => some r
    | some s => some (if action s < action r then s else r)

/-- The programs a call is checked against. Strict mode runs none. -/
def State.consulted (st : State) : List Prog :=
  match st.mode with
  | .filter => st.filters.reverse
  | _ => []

def State.verdict (st : State) (d : Data) : BitVec 32 :=
  (mostRestrictive (st.consulted.map fun f => run f d)).getD retAllow

/-! ### Installing filters -/

structure Task where
  tgid : Nat
  seccomp : State
  noNewPrivs : Bool
  privileged : Bool
  /-- The programs it installed, and the filters it was created with. -/
  installed : List Prog

def readFprog : Option Prog → Except Errno Prog
  | none => .error .efault
  | some prog =>
    if prog = [] ∨ bpfMaxInsns < prog.length then .error .einval
    else if validate prog then .ok prog else .error .einval

/-- `seccomp_set_mode` with mode 1. -/
def Task.setStrict (t : Task) (flags args : Nat) : Except Errno Task :=
  if flags ≠ 0 ∨ args ≠ 0 then .error .einval
  else if t.seccomp.mode = .filter then .error .einval
  else .ok { t with seccomp := { t.seccomp with mode := .strict } }

def Task.setFilter (t : Task) (fprog : Option Prog) : Except Errno Task :=
  if t.seccomp.mode = .strict then .error .einval
  else if !t.noNewPrivs && !t.privileged then .error .eacces
  else
    match readFprog fprog with
    | .error e => .error e
    | .ok prog =>
      .ok { t with
        seccomp := ⟨.filter, t.seccomp.filters ++ [prog]⟩
        installed := t.installed ++ [prog] }

abbrev Procs := List (Option Task)

/-- An unknown flag, or `SECCOMP_FILTER_FLAG_NEW_LISTENER`: `EINVAL`. -/
def flagsRefused (flags : BitVec 64) : Bool := flags &&& ~~~63#64 ≠ 0#64 || flags.getLsbD 3

/-- `SECCOMP_FILTER_FLAG_TSYNC`. -/
def wantsSync (flags : BitVec 64) : Bool := flags.getLsbD 0

def tsync (procs : Procs) (caller : Task) : Procs :=
  procs.map fun slot => slot.map fun p =>
    if p.tgid = caller.tgid then { p with seccomp := caller.seccomp } else p

inductive Op
  | strict (i flags args : Nat)
  /-- `SECCOMP_MODE_FILTER`, by `seccomp` or without flags `prctl`. -/
  | filter (i : Nat) (fprog : Option Prog) (flags : BitVec 64)
  /-- `fork` and `clone`: the child copies the caller. -/
  | clone (i : Nat) (thread : Bool) (tgid : Nat)
  /-- `execve` keeps the state. -/
  | exec (i : Nat) (privileged : Bool)
  | setNoNewPrivs (i : Nat)
  | exit (i : Nat)

def Procs.task (s : Procs) (i : Nat) : Option Task := (s[i]?).getD none

def Procs.put (s : Procs) (i : Nat) (t : Task) : Procs := s.set i (some t)

def Procs.step (s : Procs) : Op → Procs
  | .strict i flags args =>
    match s.task i with
    | none => s
    | some t =>
      match t.setStrict flags args with
      | .error _ => s
      | .ok t => s.put i t
  | .filter i fprog flags =>
    match s.task i with
    | none => s
    | some t =>
      if flagsRefused flags then s
      else
        match t.setFilter fprog with
        | .error _ => s
        | .ok t => if wantsSync flags then tsync (s.put i t) t else s.put i t
  | .clone i thread tgid =>
    match s.task i with
    | none => s
    | some t =>
      s ++ [some { t with
        tgid := if thread then t.tgid else tgid
        installed := t.seccomp.filters }]
  | .exec i privileged =>
    match s.task i with
    | none => s
    | some t => s.put i { t with privileged := privileged }
  | .setNoNewPrivs i =>
    match s.task i with
    | none => s
    | some t => s.put i { t with noNewPrivs := true }
  | .exit i => s.set i none

def Procs.init : Procs := [some ⟨1, .default, false, true, []⟩]

def Procs.Next (can : Procs → Op → Prop) (s s' : Procs) : Prop := ∃ op, can s op ∧ s.step op = s'

end NixVm.Seccomp
