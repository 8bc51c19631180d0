/-
A clone that fails and what it leaves.

Up to the new PID namespace a call only looks, once the zombies that nobody waits for are gone; from
there on it takes, and no error gives back. So a call that fails leaves no trace exactly if it fails
before: the condition goes through the tests of `do_clone` in their order.
-/
import NixVm.Kernel.Clone

namespace NixVm.Clone

namespace State

variable {s s' : State} {c : Proc} {a : Args} {env : Env} {e : Errno}

/-! ### The condition -/

/-- What is looked at before anything is taken: the limits, the flags of a thread, the privilege
for new namespaces and their ids. -/
def Limited (s : State) (c : Proc) (a : Args) (env : Env) : Prop :=
  (c.ruid ≠ 0 ∧ env.nproc ≤ (s.procs.filter (·.ruid = c.ruid)).length + 1) ∨
    env.maxTasks ≤ s.procs.length ∨
    (has a.flags cloneThread = true ∧
      (has a.flags (cloneNewpid ||| cloneNewuser) = true ∨ c.pidForChildren ≠ c.pidNs)) ∨
    (has a.flags needsPrivilege = true ∧ env.privileged = false ∧
      has a.flags cloneNewuser = false) ∨
    (has a.flags cloneNewuser = true ∧ env.chrooted = true) ∨ env.namespaces = false

/-- The PID namespaces in use by a task, the caller among them. -/
def inUse (s : State) (c : Proc) : List Nat :=
  (c :: s.procs).flatMap fun p => [p.pidNs, p.pidForChildren]

/-- There is no garbage to collect before a new PID namespace is made, or it is not looked for. -/
def Uncollected (s : State) (c : Proc) : Prop :=
  s.numbering.count s.nextNs < PidNs.maxNamespaces / 2 ∨
    ∀ id n, s.numbering.entry id = some n → n.numbers.entries ≠ [] ∨ id ∈ s.inUse c ∨
      s.numbering.isParent s.nextNs id = true

/-- There is no room for one more PID namespace. -/
def Full (s : State) (c : Proc) : Prop :=
  PidNs.maxNamespaces ≤ s.numbering.count s.nextNs ∨
    PidNs.maxDepth ≤ (s.numbering.chain c.pidForChildren).length + 1

/-- The PID namespace takes no task, the cgroup has no room or the CPU cannot be copied. -/
def Blocked (s : State) (c : Proc) (a : Args) (env : Env) : Prop :=
  s.numbering.acceptsTasks c.pidForChildren = false ∨
    s.cgroups.canFork (s.nodeFor c a) a.cgroup.isSome = false ∨ env.vcpuForks = false

/-- The call is turned away before it takes anything. -/
def Traceless (s : State) (c : Proc) (a : Args) (env : Env) : Prop :=
  has a.flags (~~~cloneAllFlags) = true ∨ inconsistent a.flags = true ∨
    (s.unwaited = [] ∧ (s.Limited c a env ∨
      if has a.flags cloneNewpid then s.Uncollected c ∧ s.Full c else s.Blocked c a env))

/-- What the claim compares. -/
def SameBooks (s s' : State) : Prop :=
  s'.numbering = s.numbering ∧ s'.cgroups = s.cgroups ∧ s'.procs = s.procs ∧ s'.refs = s.refs ∧
    s'.tables = s.tables ∧ s'.spaces = s.spaces

lemma SameBooks.refl (s : State) : s.SameBooks s := ⟨rfl, rfl, rfl, rfl, rfl, rfl⟩

/-! ### The stages -/

lemma refused_iff : (s.refused c a env).isSome ↔ s.Limited c a env := by
  unfold refused Limited
  split_ifs <;> simp_all

lemma length_foldl_free (l : List Proc) : ∀ s : State, (l.foldl free s).procs.length ≤
    s.procs.length := by
  induction l with
  | nil => exact fun _ => le_rfl
  | cons p l ih => exact fun s => (ih _).trans (List.length_erase_le)

/-- Who is reaped leaves the table of tasks. -/
lemma reapUnwaited_procs (h : s.unwaited ≠ []) : s.reapUnwaited.procs.length < s.procs.length := by
  unfold reapUnwaited
  cases hl : s.unwaited with
  | nil => exact absurd hl h
  | cons p l =>
    have hp : p ∈ s.procs := List.mem_of_mem_filter (hl ▸ List.mem_cons_self : p ∈ s.unwaited)
    calc ((p :: l).foldl free s).procs.length
        ≤ (s.procs.erase p).length := length_foldl_free l _
      _ < s.procs.length := by
        rw [List.length_erase_of_mem hp]
        exact Nat.sub_one_lt (List.length_pos_of_mem hp).ne'

lemma childNs_frame (s : State) (c : Proc) (a : Args) : (s.childNs c a).2.1.procs = s.procs ∧
    (s.childNs c a).2.1.cgroups = s.cgroups ∧ (s.childNs c a).2.1.refs = s.refs ∧
    (s.childNs c a).2.1.tables = s.tables ∧ (s.childNs c a).2.1.spaces = s.spaces := by
  unfold childNs
  split <;> exact ⟨rfl, rfl, rfl, rfl, rfl⟩

/-- A node that is charged counts more. -/
lemma charge_lt (l : List Nat) (k : Nat) : ∀ (t : Cgroup.Tree) (n : Cgroup.Node),
    t.nodes k = some n → ∃ n', (t.charge l 1 1).nodes k = some n' ∧ n.tasks ≤ n'.tasks ∧
      (k ∈ l → n.tasks < n'.tasks) := by
  induction l with
  | nil => exact fun t n hn => ⟨n, hn, le_rfl, fun hk => by cases hk⟩
  | cons id l ih =>
    intro t n hn
    by_cases hk : k = id
    · subst hk
      have hone : (t.charge [k] 1 1).nodes k = some { n with
          tasks := (n.tasks + (1 : Int)).toNat, live := (n.live + (1 : Int)).toNat } :=
        (if_pos rfl).trans (by rw [hn]; rfl)
      obtain ⟨n', hn', hle, -⟩ := ih _ _ hone
      have hlt : n.tasks < n'.tasks := by
        refine lt_of_lt_of_le ?_ hle
        show n.tasks < (n.tasks + (1 : Int)).toNat
        omega
      exact ⟨n', hn', hlt.le, fun _ => hlt⟩
    · obtain ⟨n', hn', hle, hlt⟩ := ih (t.modify id _) n
        ((if_neg hk : (t.modify id _).nodes k = _).trans hn)
      exact ⟨n', hn', hle, fun hmem => hlt ((List.mem_cons.mp hmem).resolve_left hk)⟩

lemma mem_chain_self (t : Cgroup.Tree) (id : Nat) : id ∈ t.chain id := by
  unfold Cgroup.Tree.chain Cgroup.Tree.chainFrom
  split <;> simp

/-- A child that is enrolled is counted. -/
lemma enroll_cgroups {pid ns : Nat} {explicit : Bool}
    (hfork : s.cgroups.canFork (s.nodeFor c a) explicit = true) :
    (s.enroll c a pid ns).cgroups ≠ s.cgroups := by
  intro heq
  have hself := mem_chain_self s.cgroups (s.nodeFor c a)
  have hall := (Bool.and_eq_true_iff.mp hfork).2
  obtain ⟨n, hn, -⟩ := (Option.any_eq_true ..).mp (List.all_eq_true.mp hall _ hself)
  obtain ⟨n', hn', -, hlt⟩ := charge_lt (s.cgroups.chain (s.nodeFor c a)) _ _ _ hn
  have hnodes : (s.cgroups.attachNew pid (s.nodeFor c a)).nodes =
      (s.cgroups.charge (s.cgroups.chain (s.nodeFor c a)) 1 1).nodes := by
    unfold Cgroup.Tree.attachNew
    split <;> rfl
  have hsame : (s.cgroups.attachNew pid (s.nodeFor c a)).nodes (s.nodeFor c a) = some n := by
    rw [show s.cgroups.attachNew pid (s.nodeFor c a) = s.cgroups from heq, hn]
  rw [hnodes, hn'] at hsame
  cases hsame
  exact absurd (hlt hself) (lt_irrefl _)

/-- From `accepts_tasks` on: a call that fails leaves the state as it was if it is blocked, and a
child in the cgroups otherwise. -/
lemma create_error {ns : Nat} (h : s.create c a env ns = (.error e, s')) :
    s' = s ∧ (s.numbering.acceptsTasks ns = false ∨
      s.cgroups.canFork (s.nodeFor c a) a.cgroup.isSome = false ∨ env.vcpuForks = false) ∨
    s'.cgroups ≠ s.cgroups ∧ ¬ (s.numbering.acceptsTasks ns = false ∨
      s.cgroups.canFork (s.nodeFor c a) a.cgroup.isSome = false ∨ env.vcpuForks = false) := by
  unfold create at h
  split at h
  · next hacc =>
    cases h
    exact .inl ⟨rfl, .inl (by simpa using hacc)⟩
  split at h
  · next hfork =>
    cases h
    exact .inl ⟨rfl, .inr (.inl (by simpa using hfork))⟩
  split at h
  · next hcpu =>
    cases h
    exact .inl ⟨rfl, .inr (.inr (by simpa using hcpu))⟩
  next hacc hfork hcpu =>
  refine .inr ⟨?_, by simp_all⟩
  split at h
  · cases h
    exact enroll_cgroups (by simpa using hfork)
  · cases h

/-! ### A new PID namespace -/

section NewPid

/-- The table from which `new_pid_namespace` starts, once garbage is collected if there is much. -/
def collected (s : State) (c : Proc) : PidNs.Table :=
  if PidNs.maxNamespaces / 2 ≤ s.numbering.count s.nextNs
  then s.numbering.collectGarbage s.nextNs (s.inUse c) else s.numbering

lemma newPidNamespace_eq (s : State) (c : Proc) (ns : Nat) : s.newPidNamespace c ns =
    if PidNs.maxNamespaces ≤ (s.collected c).count s.nextNs then (s.collected c, false)
    else match (s.collected c).create ns c.pidForChildren with
      | some t => (t, true)
      | none => (s.collected c, false) := by
  have huse : ((c :: s.procs).map fun p =>
      (⟨p.pid, p.tgid, p.pidNs, p.pidForChildren, p.zombie⟩ : PidNs.Task)).flatMap
        (fun t => [t.ns, t.forChildren]) = s.inUse c := List.flatMap_map ..
  unfold newPidNamespace PidNs.Sys.newPidNamespace PidNs.Sys.inUse collected
  exact huse ▸ rfl

lemma collected_eq_iff : s.collected c = s.numbering ↔ s.Uncollected c := by
  unfold collected Uncollected
  split
  next hmany =>
    rw [or_iff_right (not_lt.mpr hmany)]
    constructor
    · intro heq id n hn
      have hkept : (s.numbering.collectGarbage s.nextNs (s.inUse c)).entry id = some n := by
        rw [heq, hn]
      by_contra hc
      push Not at hc
      simp [PidNs.Table.collectGarbage, hn, hc.1, hc.2.1, hc.2.2] at hkept
    · intro hall
      refine congrArg PidNs.Table.mk (funext fun id => ?_)
      cases hn : s.numbering.entry id with
      | none => rfl
      | some n =>
        have hkeep := hall id n hn
        simp only [Option.filter_some, Bool.or_eq_true, Bool.not_eq_true', List.isEmpty_eq_false_iff,
          List.contains_iff_mem, or_assoc, hkeep, if_true]
  next hfew => exact iff_of_true rfl (.inl (not_le.mp hfew))

/-- A namespace that is made is in the table. -/
lemma create_ne (hfresh : s.numbering.entry s.nextNs = none) {t : PidNs.Table} {parent : Nat}
    (ht : (s.collected c).create s.nextNs parent = some t) : t ≠ s.numbering := by
  intro heq
  unfold PidNs.Table.create at ht
  split at ht
  · cases ht
  cases ht
  rw [← heq] at hfresh
  simp [PidNs.Table.insert] at hfresh

lemma newPidNamespace_made (hfresh : s.numbering.entry s.nextNs = none)
    (h : (s.newPidNamespace c s.nextNs).2 = true) :
    (s.newPidNamespace c s.nextNs).1 ≠ s.numbering := by
  rw [newPidNamespace_eq] at h ⊢
  split at h
  · cases h
  next hroom =>
  rw [if_neg hroom]
  split at h
  next t ht => exact create_ne hfresh ht
  · cases h

/-- A namespace is made and stays, or garbage is gone, unless there was none and no room. -/
lemma newPidNamespace_trace (hfresh : s.numbering.entry s.nextNs = none) :
    (s.newPidNamespace c s.nextNs).1 = s.numbering ↔ s.Uncollected c ∧ s.Full c := by
  rw [newPidNamespace_eq]
  have hnew : ∀ t, (s.collected c).create s.nextNs c.pidForChildren = some t →
      t ≠ s.numbering := fun _ ht => create_ne hfresh ht
  by_cases hun : s.Uncollected c
  · have heq := collected_eq_iff.mpr hun
    rw [heq] at hnew ⊢
    simp only [hun, true_and, Full]
    split
    next hmany => exact iff_of_true rfl (.inl hmany)
    next hfew =>
      rw [or_iff_right hfew]
      split
      next t ht =>
        refine iff_of_false (hnew t ht) fun hdeep => ?_
        rw [PidNs.Table.create, if_pos hdeep] at ht
        cases ht
      next ht =>
        refine iff_of_true rfl ?_
        by_contra hdeep
        rw [PidNs.Table.create, if_neg hdeep] at ht
        cases ht
  · have hne := mt collected_eq_iff.mp hun
    refine iff_of_false ?_ fun hc => hun hc.1
    split
    · exact hne
    split
    next t ht => exact hnew t ht
    · exact hne

end NewPid

/-- **A failed clone leaves no trace**, neither in the numbering, the cgroups and the table of tasks
nor in a count, exactly if it was turned away before it took anything. -/
theorem failed_clone_traceless (hfresh : s.numbering.entry s.nextNs = none)
    (h : s.doClone c a env = (.error e, s')) : s.SameBooks s' ↔ s.Traceless c a env := by
  unfold doClone at h
  unfold Traceless
  split at h
  next hbad =>
    cases h
    exact iff_of_true (.refl s) (.inl hbad)
  next hknown =>
  split at h
  next hbad =>
    cases h
    exact iff_of_true (.refl s) (.inr (.inl hbad))
  next hcons =>
  rw [or_iff_right hknown, or_iff_right hcons]
  -- the table of tasks after the reaping stays as it is
  have hprocs : s'.procs = s.reapUnwaited.procs := by
    have hcreate : ∀ t ns, State.create t c a env ns = (.error e, s') → s'.procs = t.procs := by
      intro t ns ht
      unfold create at ht
      split_ifs at ht
      · cases ht; rfl
      · cases ht; rfl
      · cases ht; rfl
      · dsimp only at ht
        split at ht
        · cases ht; rfl
        · cases ht
    dsimp only at h
    split at h
    · cases h; rfl
    have hframe := (childNs_frame s.reapUnwaited c a).1
    split at h
    · cases h; exact hframe
    · exact (hcreate _ _ h).trans hframe
  by_cases hreap : s.unwaited = []
  swap
  · refine iff_of_false (fun hsame => ?_) fun hc => hreap hc.1
    have hlt := reapUnwaited_procs hreap
    rw [← hprocs, hsame.2.2.1] at hlt
    exact lt_irrefl _ hlt
  have hnone : s.reapUnwaited = s := by rw [reapUnwaited, hreap, List.foldl_nil]
  simp only [hreap, true_and]
  rw [hnone] at h
  dsimp only at h
  split at h
  next e' hr =>
    cases h
    exact iff_of_true (.refl s) (.inl (refused_iff.mp (by rw [hr]; rfl)))
  next hr =>
  have hfree : ¬ s.Limited c a env := fun hc => by
    have := refused_iff.mpr hc
    rw [hr] at this
    cases this
  rw [or_iff_right hfree]
  obtain ⟨-, hcg, hrefs, htables, hspaces⟩ := childNs_frame s c a
  cases hn : has a.flags cloneNewpid with
  | false =>
    have hsame : s.childNs c a = (c.pidForChildren, s, true) := by
      unfold childNs
      rw [hn]
      rfl
    rw [hsame] at h
    rcases create_error h with ⟨rfl, hb⟩ | ⟨hne, hb⟩
    · exact iff_of_true (.refl s') (by rw [if_neg Bool.false_ne_true]; exact hb)
    · exact iff_of_false (fun hs => hne hs.2.1) (by rw [if_neg Bool.false_ne_true]; exact hb)
  | true =>
    have htab : (s.childNs c a).2.1.numbering = (s.newPidNamespace c s.nextNs).1 := by
      unfold childNs
      rw [hn]
      rfl
    rw [if_pos rfl, ← newPidNamespace_trace hfresh, ← htab]
    split at h
    · cases h
      exact ⟨fun hs => hs.1, fun heq => ⟨heq, hcg, hprocs.trans (by rw [hnone]), hrefs, htables,
        hspaces⟩⟩
    next hmade =>
    -- the namespace was made: it is in the table, whatever follows
    have hnum : (s.childNs c a).2.1.numbering ≠ s.numbering := by
      rw [htab]
      refine newPidNamespace_made hfresh ?_
      have hsnd : (s.childNs c a).2.2 = (s.newPidNamespace c s.nextNs).2 := by
        unfold childNs
        rw [hn]
        rfl
      rw [← hsnd]
      simpa using hmade
    refine iff_of_false (fun hs => ?_) hnum
    rcases create_error h with ⟨rfl, -⟩ | ⟨hne, -⟩
    · exact hnum hs.1
    · exact hne (hs.2.1.trans hcg.symm)

def alone : State where
  procs := []
  nextPid := 2
  numbering := ⟨fun _ => none⟩
  nextNs := 1
  cgroups := Cgroup.Tree.init
  refs := fun e => if e = .pipeRead 0 ∨ e = .pipeWrite 0 then 1 else 0
  tables := [[.pipeRead 0, .pipeWrite 0]]
  spaces := 1

def first : Proc := ⟨1, 1, 0, false, false, 0, 0, 0, 0⟩

def willing : Env := ⟨100, 100, true, false, true, true, 2, true, true, true⟩

theorem failed_clone_traceless_limit :
    ∃ s', alone.doClone first ⟨0, none⟩ { willing with maxTasks := 0 } = (.error .eagain, s') ∧
      alone.SameBooks s' := by
  have hrun : alone.doClone first ⟨0, none⟩ { willing with maxTasks := 0 } = (.error .eagain, alone) :=
    rfl
  exact ⟨alone, hrun, (failed_clone_traceless rfl hrun).mpr
    (.inr (.inr ⟨rfl, .inl (.inr (.inl le_rfl))⟩))⟩

/-- A fork that finds no memory: the child that was never made stays charged. -/
theorem failed_clone_charged :
    ∃ s', alone.doClone first ⟨0, none⟩ { willing with memoryFits := false } = (.error .enomem, s') ∧
      (alone.cgroups.nodes Cgroup.root).map (·.tasks) = some 0 ∧
      (s'.cgroups.nodes Cgroup.root).map (·.tasks) = some 1 ∧ s'.procs = [] :=
  ⟨_, rfl, rfl, rfl, rfl⟩

end State

end NixVm.Clone
