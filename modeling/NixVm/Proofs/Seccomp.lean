/-
Filters stay installed, as long as threads are synchronised only to what they already have.

Synchronising threads takes a thread's own filters away unless the caller has them too, which the
source does not check.
-/
import NixVm.Kernel.Seccomp

namespace NixVm.Seccomp

open List

variable {fprog : Option Prog} {t t' : Task}

/-- A task still has every program of its history, and is in filter mode if there is one. -/
structure Task.Keeps (t : Task) : Prop where
  kept : ∀ p ∈ t.installed, p ∈ t.seccomp.filters
  mode : t.seccomp.filters ≠ [] → t.seccomp.mode = .filter

lemma Task.Keeps.consulted {t : Task} (h : t.Keeps) {p : Prog} (hp : p ∈ t.installed) :
    p ∈ t.seccomp.consulted := by
  have hmem := h.kept p hp
  rw [State.consulted, h.mode (ne_nil_of_mem hmem)]
  exact mem_reverse.mpr hmem

lemma keeps_setStrict {flags args : Nat} (h : t.Keeps)
    (ht : t.setStrict flags args = .ok t') : t'.Keeps := by
  unfold Task.setStrict at ht
  split at ht
  · cases ht
  split at ht
  · cases ht
  rename_i hmode
  cases ht
  -- a task with filters is in filter mode and cannot get here
  exact ⟨h.kept, fun hne => absurd (h.mode hne) hmode⟩

lemma setFilter_ok (ht : t.setFilter fprog = .ok t') : ∃ prog,
      t'.seccomp = ⟨.filter, t.seccomp.filters ++ [prog]⟩ ∧
      t'.installed = t.installed ++ [prog] ∧ t'.tgid = t.tgid := by
  unfold Task.setFilter at ht
  split at ht
  · cases ht
  split at ht
  · cases ht
  split at ht
  · cases ht
  rename_i prog _
  cases ht
  exact ⟨prog, rfl, rfl, rfl⟩

lemma keeps_setFilter (h : t.Keeps) (ht : t.setFilter fprog = .ok t') : t'.Keeps := by
  obtain ⟨prog, hst, hin, -⟩ := setFilter_ok ht
  constructor
  · intro p hp
    rw [hin] at hp
    rw [hst]
    rcases mem_append.mp hp with hp | hp
    · exact mem_append_left _ (h.kept p hp)
    · exact mem_append_right _ hp
  · intro _
    rw [hst]

/-- Threads are synchronised only to filters they have. -/
def Procs.Synced (s : Procs) : Op → Prop
  | .filter i _ flags => wantsSync flags = true → ∀ t, s.task i = some t →
      ∀ p, some p ∈ s → p.tgid = t.tgid → ∀ f ∈ p.seccomp.filters, f ∈ t.seccomp.filters
  | _ => True

def Procs.AllKeep (s : Procs) : Prop := ∀ t, some t ∈ s → t.Keeps

variable {s : Procs}

lemma Procs.mem_of_task {i : Nat} {t : Task} (h : s.task i = some t) : some t ∈ s := by
  unfold Procs.task at h
  cases hi : s[i]? with
  | none => rw [hi] at h; cases h
  | some slot =>
    rw [hi] at h
    obtain rfl : slot = some t := h
    exact mem_of_getElem? hi

lemma allKeep_put (h : s.AllKeep) (i : Nat) {t : Task} (ht : t.Keeps) : (s.put i t).AllKeep := by
  intro p hp
  rcases mem_or_eq_of_mem_set hp with hp | hp
  · exact h p hp
  cases hp
  exact ht

lemma allKeep_tsync {i : Nat} (h : s.AllKeep)
    (hi : s.task i = some t) (ht : t.setFilter fprog = .ok t')
    (hs : ∀ p, some p ∈ s → p.tgid = t.tgid → ∀ f ∈ p.seccomp.filters, f ∈ t.seccomp.filters) :
    (tsync (s.put i t') t').AllKeep := by
  have ⟨prog, hst, hin, htgid⟩ := setFilter_ok ht
  have hkeep := keeps_setFilter (h t (Procs.mem_of_task hi)) ht
  intro q hq
  have ⟨slot, hslot, hmap⟩ := mem_map.mp hq
  obtain ⟨p, rfl, rfl⟩ := Option.map_eq_some_iff.mp hmap
  split
  next hgroup =>
    refine ⟨fun f hf => ?_, fun _ => ?_⟩
    · -- the thread's programs are among its old filters, and those among the caller's
      rcases mem_or_eq_of_mem_set hslot with hp | hp
      · have hold := hs p hp (hgroup.trans htgid) f ((h p hp).kept f hf)
        rw [hst]
        exact mem_append_left _ hold
      · cases hp
        exact hkeep.kept f hf
    · dsimp only
      rw [hst]
  · exact allKeep_put h i hkeep p hslot

lemma allKeep_step (h : s.AllKeep) {op : Op} (hs : s.Synced op) : (s.step op).AllKeep := by
  cases op with
  | strict i flags args =>
    unfold Procs.step
    dsimp only
    split
    · exact h
    rename_i t hi
    split
    · exact h
    rename_i t' ht
    exact allKeep_put h i (keeps_setStrict (h t (Procs.mem_of_task hi)) ht)
  | filter i fprog flags =>
    unfold Procs.step
    dsimp only
    split
    · exact h
    rename_i t hi
    split
    · exact h
    split
    · exact h
    rename_i t' ht
    split
    next hsync => exact allKeep_tsync h hi ht (hs hsync t hi)
    · exact allKeep_put h i (keeps_setFilter (h t (Procs.mem_of_task hi)) ht)
  | clone i thread tgid =>
    unfold Procs.step
    dsimp only
    split
    · exact h
    rename_i t hi
    intro p hp
    rcases mem_append.mp hp with hp | hp
    · exact h p hp
    obtain rfl := Option.some.inj (mem_singleton.mp hp)
    have ht := h t (Procs.mem_of_task hi)
    exact ⟨fun _ hp => hp, ht.mode⟩
  | exec i privileged | setNoNewPrivs i =>
    unfold Procs.step
    dsimp only
    split
    · exact h
    rename_i t hi
    have ht := h t (Procs.mem_of_task hi)
    exact allKeep_put h i ⟨ht.kept, ht.mode⟩
  | exit i =>
    intro p hp
    rcases mem_or_eq_of_mem_set hp with hp | hp
    · exact h p hp
    · cases hp

/-- Every program of a task's history is run on each of its system calls. -/
def Procs.Permanent (s : Procs) : Prop :=
  ∀ t, some t ∈ s → ∀ p ∈ t.installed, p ∈ t.seccomp.consulted

lemma allKeep_run (h : Relation.ReflTransGen (Procs.Next Procs.Synced) Procs.init s) :
    s.AllKeep := by
  induction h with
  | refl =>
    intro t ht
    obtain rfl := Option.some.inj (mem_singleton.mp ht)
    exact ⟨fun p hp => (by cases hp), fun hne => absurd rfl hne⟩
  | tail _ hlast ih =>
    obtain ⟨op, hs, rfl⟩ := hlast
    exact allKeep_step ih hs

/-- **Filters are permanent.** In every run that synchronises threads only to filters they have, a
program once installed or inherited is run on every later call. -/
theorem filters_permanent (h : Relation.ReflTransGen (Procs.Next Procs.Synced) Procs.init s) :
    s.Permanent :=
  fun t ht _ hp => (allKeep_run h t ht).consulted hp

def killAll : Prog := [⟨0x06#16, 0, 0, retKillThread⟩]
def allowAll : Prog := [⟨0x06#16, 0, 0, retAllow⟩]

theorem filters_permanent_synced :
    ((Procs.init.step (.clone 0 true 0)).step (.filter 0 (some killAll) 1#64)).Permanent := by
  refine filters_permanent ((Relation.ReflTransGen.single ⟨.clone 0 true 0, trivial, rfl⟩).tail
    ⟨.filter 0 (some killAll) 1#64, ?_, rfl⟩)
  intro _ t _ p hp _ f hf
  -- neither thread has a filter yet
  have hnone : ∀ q, some q ∈ Procs.init.step (.clone 0 true 0) → q.seccomp.filters = [] := by
    intro q hq
    have hq : q = ⟨1, .default, false, true, []⟩ ∨ q = ⟨1, .default, false, true, []⟩ := by
      simpa [Procs.step, Procs.init, Procs.task, State.default] using hq
    rcases hq with rfl | rfl <;> rfl
  rw [hnone p hp] at hf
  cases hf

/-- A filter that refuses everything is replaced by another thread's that allows everything. -/
theorem filters_lost_by_tsync : ∃ s,
    Relation.ReflTransGen (Procs.Next fun _ _ => True) Procs.init s ∧ ¬ s.Permanent := by
  refine ⟨((Procs.init.step (.clone 0 true 0)).step (.filter 1 (some killAll) 0#64)).step
    (.filter 0 (some allowAll) 1#64), ?_, ?_⟩
  · exact ((Relation.ReflTransGen.single ⟨.clone 0 true 0, trivial, rfl⟩).tail
      ⟨.filter 1 (some killAll) 0#64, trivial, rfl⟩).tail
      ⟨.filter 0 (some allowAll) 1#64, trivial, rfl⟩
  intro hperm
  have hlost := hperm ⟨1, ⟨.filter, [allowAll]⟩, false, true, [killAll]⟩
    (List.mem_of_getElem? (i := 1) rfl) killAll (by simp)
  simp [State.consulted, killAll, allowAll, retKillThread, retAllow] at hlost

/-! ### The verdict -/

lemma mostRestrictive_le : ∀ {rs : List (BitVec 32)} {q : BitVec 32}, q ∈ rs →
    ∃ r, mostRestrictive rs = some r ∧ action r ≤ action q := by
  intro rs
  induction rs with
  | nil => exact fun hq => absurd hq not_mem_nil
  | cons r rs ih =>
    intro q hq
    unfold mostRestrictive
    rcases mem_cons.mp hq with rfl | hq
    · cases mostRestrictive rs with
      | none => exact ⟨q, rfl, le_rfl⟩
      | some s =>
        refine ⟨_, rfl, ?_⟩
        split <;> omega
    · obtain ⟨s, hs, hle⟩ := ih hq
      rw [hs]
      refine ⟨_, rfl, ?_⟩
      split <;> omega

/-- In every such run the verdict on a call of a task is at least as restrictive as what any program
of its history returns. -/
lemma verdict_le_installed (h : Relation.ReflTransGen (Procs.Next Procs.Synced) Procs.init s)
    (ht : some t ∈ s) {p : Prog} (hp : p ∈ t.installed) (d : Data) :
    action (t.seccomp.verdict d) ≤ action (run p d) := by
  obtain ⟨r, hr, hle⟩ := mostRestrictive_le
    (mem_map_of_mem (f := fun f => run f d) ((allKeep_run h t ht).consulted hp))
  rwa [State.verdict, hr, Option.getD_some]

section Validated

variable {i : Insn} {prog : Prog} {pc len : Nat} {d : Data} {r : Regs}

def Insn.isRet (i : Insn) : Prop := i.code = 0x06#16 ∨ i.code = 0x16#16

lemma Insn.isRet_iff : i.isRet ↔ i.code.toNat = 0x06 ∨ i.code.toNat = 0x16 := by
  simp [Insn.isRet, BitVec.toNat_eq]

lemma Insn.known_of_valid (h : i.valid pc len = true) : i.code.toNat ∈ opcodes := by
  unfold Insn.valid at h
  split at h
  all_goals first
    | (rename_i hc; rw [hc]; decide)
    | exact absurd h Bool.false_ne_true

lemma Insn.inBounds_of_valid (h : i.valid pc len = true) : i.inBounds = true := by
  unfold Insn.inBounds
  split
  case h_1 hc =>
    simp only [Insn.valid, hc, Bool.and_eq_true, decide_eq_true_eq] at h ⊢
    have hlen : dataLen = 64 := rfl
    omega
  case h_6 => rfl
  all_goals
    rename_i hc
    simpa [Insn.valid, hc] using h

lemma Insn.ret_of_known (h : i.code.toNat ∈ opcodes) {v : BitVec 32}
    (hs : i.step d r = .ret v) : i.isRet := by
  rw [Insn.isRet_iff]
  unfold Insn.step at hs
  generalize (if i.code &&& 0x08#16 ≠ 0#16 then r.x else i.k) = src at hs
  split at hs
  case h_40 hc => exact .inl hc
  case h_41 hc => exact .inr hc
  case h_44 => simp_all [opcodes]
  all_goals exact Flow.noConfusion hs

lemma Insn.next_of_valid (h : i.valid pc len = true) {skip : Nat} {r' : Regs}
    (hs : i.step d r = .next skip r') : ¬ i.isRet ∧ (skip = 0 ∨ pc + 1 + skip < len) := by
  rw [Insn.isRet_iff]
  unfold Insn.step at hs
  generalize (if i.code &&& 0x08#16 ≠ 0#16 then r.x else i.k) = src at hs
  split at hs
  all_goals rename_i hc
  all_goals simp only [Flow.next.injEq, reduceCtorEq] at hs
  all_goals obtain ⟨rfl, -⟩ := hs
  all_goals refine ⟨by omega, ?_⟩
  all_goals first
    | exact .inl rfl
    | (simp only [Insn.valid, hc, Bool.and_eq_true, decide_eq_true_eq] at h
       refine Or.inr ?_
       split <;> omega)
    | (simp only [Insn.valid, hc, decide_eq_true_eq] at h
       exact .inr h)

lemma valid_of_validate (h : validate prog = true) (hi : prog[pc]? = some i) :
    i.valid pc prog.length = true ∧ (pc + 1 = prog.length → i.isRet) := by
  simp only [validate, Bool.and_eq_true, all_eq_true] at h
  refine ⟨h.1.2 (i, pc) (mem_zipIdx_iff_getElem?.mpr hi), fun hlast => ?_⟩
  have hl := h.2
  rw [List.getLast?_eq_getElem?, ← hlast, Nat.add_sub_cancel, hi] at hl
  simpa [Insn.isRet] using hl

lemma runFrom_skip (skip : Nat) (r : Regs) :
    runFrom d prog skip r = runFrom d (prog.drop skip) 0 r := by
  induction prog generalizing skip with
  | nil => cases skip <;> simp [runFrom]
  | cons i rest ih =>
    cases skip with
    | zero => rfl
    | succ skip => simpa [runFrom] using ih skip

lemma runFrom_drop (hi : prog[pc]? = some i) (r : Regs) : runFrom d (prog.drop pc) 0 r
      = match i.step d r with
        | .ret v => v
        | .next skip r => runFrom d (prog.drop (pc + 1 + skip)) 0 r := by
  obtain ⟨hlt, rfl⟩ := List.getElem?_eq_some_iff.mp hi
  rw [drop_eq_getElem_cons hlt, runFrom]
  cases (prog[pc]).step d r with
  | ret v => rfl
  | next skip r => simp only [runFrom_skip skip, drop_drop]

lemma trace_ret (h : validate prog = true) (turns : Nat) :
    ∀ (pc : Nat) (r : Regs), pc < prog.length → prog.length ≤ pc + turns →
      ∃ last i v, trace prog d turns pc r = some (.ret last v) ∧ prog[last]? = some i ∧
        i.isRet ∧ runFrom d (prog.drop pc) 0 r = v := by
  induction turns with
  | zero => intro pc r hpc hle; omega
  | succ turns ih =>
    intro pc r hpc hle
    have hi : prog[pc]? = some prog[pc] := List.getElem?_eq_getElem hpc
    have ⟨hvalid, hend⟩ := valid_of_validate h hi
    have hin := Insn.inBounds_of_valid hvalid
    have hknown := Insn.known_of_valid hvalid
    unfold trace
    simp only [hi, hin, hknown, Bool.not_true, Bool.false_eq_true, not_true_eq_false, if_false]
    rw [runFrom_drop hi r]
    cases hs : (prog[pc]).step d r with
    | ret v => exact ⟨pc, _, v, rfl, hi, Insn.ret_of_known hknown hs, rfl⟩
    | next skip r' =>
      have ⟨hnot, hskip⟩ := Insn.next_of_valid hvalid hs
      have hmore : pc + 1 ≠ prog.length := fun hc => hnot (hend hc)
      exact ih (pc + 1 + skip) r' (by omega) (by omega)

/-- **Validated programs are safe and total.** The loop of `run` reaches a `ret` in no more turns
than there are instructions, with every access in bounds, and returns it. -/
theorem validated_reaches_ret (h : validate prog = true) (d : Data) :
    ∃ pc i v, trace prog d prog.length 0 Regs.init = some (.ret pc v) ∧ prog[pc]? = some i ∧
      i.isRet ∧ run prog d = v := by
  have hne : prog ≠ [] := by
    simp only [validate, Bool.and_eq_true, decide_eq_true_eq] at h
    exact h.1.1.1
  exact trace_ret h prog.length 0 Regs.init (List.length_pos_iff.mpr hne) (by omega)

def allowOnly (nr : BitVec 32) : Prog :=
  [⟨0x20#16, 0, 0, 0#32⟩, ⟨0x15#16, 0, 1, nr⟩, ⟨0x06#16, 0, 0, retAllow⟩,
   ⟨0x06#16, 0, 0, retKillThread⟩]

theorem validated_reaches_ret_allowOnly : validate (allowOnly 60#32) = true ∧ ∃ pc i v,
      trace (allowOnly 60#32) ⟨60#32, 0#32, 0#64, fun _ => 0#64⟩ 4 0 Regs.init
        = some (.ret pc v) ∧ (allowOnly 60#32)[pc]? = some i ∧ i.isRet ∧
      run (allowOnly 60#32) ⟨60#32, 0#32, 0#64, fun _ => 0#64⟩ = v :=
  ⟨by decide, validated_reaches_ret (by decide) _⟩

end Validated

end NixVm.Seccomp
