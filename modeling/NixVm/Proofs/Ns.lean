/-
What `setns` lets a task join.

Through a descriptor of a namespace a task joins only what it may administer, and a user namespace
only if it is nested in its own. Through a pidfd it joins what the process is in and nothing of this
is asked, so the call is confined exactly if it would pass there too. That `is_within` then says what
it means, although its loop is bounded, rests on what every run keeps (`State.Sound`).
-/
import NixVm.Kernel.Ns
import NixVm.Proofs.UserNs

namespace NixVm.Ns

open UserNs (Table)

def Child (users : Table) (inner outer : Nat) : Prop :=
  ∃ e, users.entry inner = some e ∧ e.parent = outer

def Inside (users : Table) (inner outer : Nat) : Prop :=
  outer = 0 ∨ Relation.ReflTransGen (Child users) inner outer

/-- The user namespaces are in order, and the parent of each has an entry, up to the initial one. -/
structure Recorded (users : Table) : Prop extends users.Nested where
  parent : ∀ ns e, users.entry ns = some e → e.parent = 0 ∨ (users.entry e.parent).isSome

/-- The place in a proxy that joining a namespace of this kind changes. -/
def Kind.slot : Kind → Kind
  | .pid => .pidForChildren
  | .time => .timeForChildren
  | kind => kind

lemma joinNamespace_get (ns : Proxy) (kind : Kind) (id : Nat) (k : Kind) :
    (joinNamespace ns kind id).get k = if kind.slot = k then id else ns.get k := by
  cases kind <;> cases k <;> rfl

inductive Joins (s : State) (t : Task) (fd nstype : Nat) : Kind → Nat → Prop
  | namespaceFd {kind : Kind} {id : Nat} (h : t.fds[fd]? = some (.namespaceFd kind id)) :
      Joins s t fd nstype kind id
  | pidfd {pid : Nat} {target : Proxy} {kind : Kind} (h : t.fds[fd]? = some (.pidfd pid))
      (htarget : s.namespacesOf t pid = some target) (hkind : kind ∈ pidfdKinds)
      (hasked : asks nstype kind = true) : Joins s t fd nstype kind (target.get kind)

lemma joinAll_get (target : Proxy) (k : Kind) (kinds : List Kind) :
    ∀ ns : Proxy, let ns' := kinds.foldl (fun ns kind => joinNamespace ns kind (target.get kind)) ns
      ns'.get k = ns.get k ∨ ∃ kind ∈ kinds, kind.slot = k ∧ ns'.get k = target.get kind := by
  induction kinds with
  | nil => exact fun ns => .inl rfl
  | cons kind kinds ih =>
    intro ns
    rcases ih (joinNamespace ns kind (target.get kind)) with h | ⟨kind', hmem, hslot, h⟩
    · dsimp only at h ⊢
      rw [List.foldl_cons, h, joinNamespace_get]
      by_cases hk : kind.slot = k
      · exact .inr ⟨kind, List.mem_cons_self, hk, if_pos hk⟩
      · exact .inl (if_neg hk)
    · exact .inr ⟨kind', List.mem_cons_of_mem _ hmem, hslot, h⟩

lemma setns_namespace {s : State} {t t' : Task} {fd nstype : Nat} {kind : Kind} {id : Nat}
    (h : s.sysSetns t fd nstype = .ok t') (hfd : t.fds[fd]? = some (.namespaceFd kind id)) :
    t'.ns = joinNamespace t.ns kind id ∧ (kind = .user → s.users.isWithin id t.ns.user = true) ∧
      (kind ≠ .user → s.mayAdminister t id = true) := by
  unfold State.sysSetns at h
  split at h
  · cases h
  split at h
  · cases h
  simp only [hfd] at h
  split at h
  · cases h
  split at h
  · cases h
  split at h
  next huser =>
    unfold State.joinUserNamespace at h
    dsimp only at h
    split at h
    · cases h
    split at h
    · cases h
    rename_i hallowed
    cases h
    rw [huser]
    simp only [Bool.not_eq_true', Bool.not_eq_false, Bool.and_eq_true] at hallowed
    exact ⟨rfl, fun _ => hallowed.1, fun hne => absurd rfl hne⟩
  next huser =>
    split at h
    · cases h
    rename_i hadmin
    split at h
    · cases h
    cases h
    exact ⟨rfl, fun hk => absurd hk huser, fun _ => by simpa using hadmin⟩

lemma setns_pidfd {s : State} {t t' : Task} {fd nstype pid : Nat}
    (h : s.sysSetns t fd nstype = .ok t') (hfd : t.fds[fd]? = some (.pidfd pid)) :
    t.privileged = true ∧
      ∃ target, s.namespacesOf t pid = some target ∧ t'.ns = joinAll nstype target t.ns := by
  unfold State.sysSetns at h
  split at h
  · cases h
  split at h
  · cases h
  rename_i hpriv
  have hpriv : t.privileged = true := by simpa [Task.joinsUser, hfd] using hpriv
  simp only [hfd] at h
  split at h
  · cases h
  split at h
  · cases h
  rename_i target htarget
  split at h
  · cases h
  cases h
  exact ⟨hpriv, target, htarget, rfl⟩

lemma joins_of_changed {s : State} {t t' : Task} {fd nstype : Nat}
    (h : s.sysSetns t fd nstype = .ok t') {k : Kind} (hk : t'.ns.get k ≠ t.ns.get k) :
    ∃ kind, kind.slot = k.slot ∧ Joins s t fd nstype kind (t'.ns.get k) := by
  have hslot : ∀ kind : Kind, kind.slot.slot = kind.slot := by
    intro kind
    cases kind <;> rfl
  cases hfd : t.fds[fd]? with
  | none =>
    simp only [State.sysSetns, hfd] at h
    repeat' split at h
    all_goals cases h
  | some d =>
    cases d with
    | other =>
      simp only [State.sysSetns, hfd] at h
      repeat' split at h
      all_goals cases h
    | namespaceFd kind id =>
      obtain ⟨hns, -, -⟩ := setns_namespace h hfd
      rw [hns, joinNamespace_get] at hk ⊢
      split at hk
      next heq =>
        exact ⟨kind, by rw [← heq, hslot], by rw [if_pos heq]; exact .namespaceFd hfd⟩
      · exact absurd rfl hk
    | pidfd pid =>
      obtain ⟨-, target, htarget, hns⟩ := setns_pidfd h hfd
      rcases joinAll_get target k (pidfdKinds.filter (asks nstype)) t.ns with
        hsame | ⟨kind, hmem, heq, hget⟩
      · exact absurd (by rw [hns]; exact hsame) hk
      obtain ⟨hmem, hasked⟩ := List.mem_filter.mp hmem
      refine ⟨kind, by rw [← heq, hslot], ?_⟩
      have : t'.ns.get k = target.get kind := by
        rw [hns]
        exact hget
      rw [this]
      exact .pidfd hfd htarget hmem hasked

lemma joins_user {s : State} {t t' : Task} {fd nstype : Nat}
    (h : s.sysSetns t fd nstype = .ok t') (hne : t'.ns.user ≠ t.ns.user) :
    ∃ id, t'.ns.user = id ∧ Joins s t fd nstype .user id := by
  obtain ⟨kind, hslot, hj⟩ := joins_of_changed (k := .user) h hne
  have hk : kind = .user := by
    cases kind <;> first | rfl | cases hslot
  subst hk
  exact ⟨_, rfl, hj⟩

lemma setns_fds {s : State} {t t' : Task} {fd nstype : Nat}
    (h : s.sysSetns t fd nstype = .ok t') : t'.fds = t.fds := by
  unfold State.sysSetns State.joinUserNamespace at h
  dsimp only at h
  repeat' split at h
  all_goals first | cases h; rfl | cases h

/-- A user namespace that has an entry, or the initial one. -/
def State.Known (s : State) (ns : Nat) : Prop := ns = 0 ∨ (s.users.entry ns).isSome

/-- What every run keeps: the entries are below the counter, and what tasks are in or have
descriptors of has an entry. -/
structure State.Sound (s : State) : Prop extends Recorded s.users where
  below : ∀ ns, (s.users.entry ns).isSome → ns ≤ s.nextNs
  user : ∀ t ∈ s.tasks, s.Known t.ns.user
  fds : ∀ t ∈ s.tasks, ∀ id, .namespaceFd .user id ∈ t.fds → s.Known id

variable {s s' : State} {t : Task} {i : Nat}

lemma State.Sound.known_le (h : s.Sound) {ns : Nat} (hk : s.Known ns) : ns ≤ s.nextNs := by
  rcases hk with rfl | hk
  · exact Nat.zero_le _
  · exact h.below ns hk

lemma nested_of_entry {users users' : Table} (h : users.Nested)
    (heq : users'.entry = users.entry) : users'.Nested := by
  have hchain : ∀ fuel ns, users'.chainFrom fuel ns = users.chainFrom fuel ns := by
    intro fuel
    induction fuel with
    | zero => exact fun ns => rfl
    | succ fuel ih =>
      intro ns
      unfold Table.chainFrom
      rw [heq]
      simp only [ih]
  exact ⟨fun ns e he => h.parent_lt ns e (heq ▸ he), fun ns => by
    rw [Table.chain, hchain]
    exact h.depth ns⟩

/-- A step that makes no user namespace, and after which tasks have only what is known. -/
lemma State.Sound.of_entry (h : s.Sound) (heq : s'.users.entry = s.users.entry)
    (hnext : s.nextNs ≤ s'.nextNs)
    (htasks : ∀ t ∈ s'.tasks, s.Known t.ns.user ∧ ∀ id, .namespaceFd .user id ∈ t.fds → s.Known id) :
    s'.Sound := by
  have hknown : ∀ ns, s.Known ns → s'.Known ns := by
    intro ns hk
    unfold State.Known at hk ⊢
    rwa [heq]
  constructor
  · exact ⟨nested_of_entry h.toNested heq, by rw [heq]; exact h.parent⟩
  · intro ns hns
    rw [heq] at hns
    exact (h.below ns hns).trans hnext
  · exact fun t ht => hknown _ (htasks t ht).1
  · exact fun t ht id hid => hknown _ ((htasks t ht).2 id hid)

lemma State.Sound.task (h : s.Sound) (ht : s.tasks[i]? = some t) :
    s.Known t.ns.user ∧ ∀ id, .namespaceFd .user id ∈ t.fds → s.Known id :=
  ⟨h.user t (List.mem_of_getElem? ht), h.fds t (List.mem_of_getElem? ht)⟩

lemma State.Sound.setTask (h : s.Sound)
    (ht : s.Known t.ns.user ∧ ∀ id, .namespaceFd .user id ∈ t.fds → s.Known id) :
    (s.setTask i t).Sound := by
  refine h.of_entry rfl (Nat.le_refl _) fun t' ht' => ?_
  rcases List.mem_or_eq_of_mem_set ht' with hmem | rfl
  · exact ⟨h.user t' hmem, h.fds t' hmem⟩
  · exact ht

lemma State.Sound.namespacesOf (h : s.Sound) (ht : s.Known t.ns.user) {pid : Nat} {ns : Proxy}
    (hns : s.namespacesOf t pid = some ns) : s.Known ns.user := by
  unfold State.namespacesOf at hns
  split at hns
  · cases hns
    exact ht
  split at hns
  · cases hns
  rename_i p hp
  split at hns
  · cases hns
  cases hns
  exact h.user p (List.mem_of_find?_eq_some hp)

lemma newNamespace_le (flags : Nat) (kind : Kind) (r : Proxy × Nat) :
    r.2 ≤ (newNamespace flags kind r).2 := by
  unfold newNamespace
  split
  · exact Nat.le_succ _
  · exact Nat.le_refl _

/-- The other new namespaces leave the user namespace alone. -/
lemma others_user (flags : Nat) (r : Proxy × Nat) :
    (otherKinds.foldl (fun r kind => newNamespace flags kind r) r).1.user = r.1.user ∧
      r.2 ≤ (otherKinds.foldl (fun r kind => newNamespace flags kind r) r).2 := by
  have hfold : ∀ (kinds : List Kind), Kind.user ∉ kinds → ∀ r : Proxy × Nat,
      (kinds.foldl (fun r kind => newNamespace flags kind r) r).1.user = r.1.user ∧
      r.2 ≤ (kinds.foldl (fun r kind => newNamespace flags kind r) r).2 := by
    intro kinds
    induction kinds with
    | nil => exact fun _ r => ⟨rfl, Nat.le_refl _⟩
    | cons kind kinds ih =>
      intro hkinds r
      obtain ⟨huser, hle⟩ := ih (fun h => hkinds (List.mem_cons_of_mem _ h))
        (newNamespace flags kind r)
      refine ⟨huser.trans ?_, (newNamespace_le flags kind r).trans hle⟩
      unfold newNamespace
      split
      · cases kind <;> first | rfl | exact absurd List.mem_cons_self hkinds
      · rfl
  exact hfold otherKinds (by decide) r

/-- A user namespace is entered under a number above all in use. -/
lemma State.Sound.insert (h : s.Sound) {ns : Nat} {e : UserNs.Entry} (hns : ns ≤ s.nextNs)
    (hfresh : s.users.Fresh ns e.parent) (hparent : s.Known e.parent)
    (hdepth : (s.users.chain e.parent).length + 1 < UserNs.maxDepth) :
    ({ s with users := s.users.insert ns e } : State).Sound := by
  have hkeep : ∀ m, s.Known m → ({ s with users := s.users.insert ns e } : State).Known m := by
    rintro m (hm | hm)
    · exact .inl hm
    · have hne : m ≠ ns := (hfresh.1 m hm).ne
      exact .inr ((congrArg Option.isSome (if_neg hne)).trans hm)
  constructor
  · refine ⟨UserNs.nested_create h.toNested hfresh rfl hdepth, fun m x hx => ?_⟩
    by_cases hm : m = ns
    · cases (if_pos hm).symm.trans hx
      exact hkeep _ hparent
    · exact hkeep _ (h.parent m x ((if_neg hm).symm.trans hx))
  · intro m hm
    by_cases heq : m = ns
    · exact heq ▸ hns
    · exact h.below m ((congrArg Option.isSome (if_neg heq)).symm.trans hm)
  · exact fun t ht => hkeep _ (h.user t ht)
  · exact fun t ht id hid => hkeep _ (h.fds t ht id hid)

lemma State.Sound.unshare (h : s.Sound) {flags : Nat} (hs : s.unshare i flags = some s') :
    s'.Sound := by
  unfold State.unshare at hs
  cases ht : s.tasks[i]? with
  | none => rw [ht] at hs; cases hs
  | some t =>
    rw [ht] at hs
    dsimp only at hs
    obtain ⟨hknown, hfds⟩ := h.task ht
    split at hs
    · cases hs
    split at hs
    · cases hs
    split at hs
    · cases hs
    set r := newNamespace flags .user (t.ns, s.nextNs) with hr
    obtain ⟨huser, hle⟩ := others_user flags r
    set r' := otherKinds.foldl (fun r kind => newNamespace flags kind r) r with hr'
    have hnext : s.nextNs ≤ r'.2 := (newNamespace_le flags .user (t.ns, s.nextNs)).trans hle
    -- the state with the counter and the owners of the new namespaces
    have hbase : ∀ pids, ({ s with
        users := recordOwners s.users r.1 r'.1, nextNs := r'.2, pidParent := pids } : State).Sound :=
      fun pids => h.of_entry rfl hnext fun t ht => ⟨h.user t ht, h.fds t ht⟩
    cases hasked : asks flags .user with
    | false =>
      have hsame : r'.1.user = t.ns.user := by
        rw [huser, hr, newNamespace, hasked]
        rfl
      simp only [hasked, Bool.false_eq_true, if_false] at hs
      have hset : ∀ pids (ns : Proxy), ns.user = t.ns.user →
          (({ s with users := recordOwners s.users r.1 r'.1, nextNs := r'.2, pidParent := pids }
            : State).setTask i { t with ns }).Sound :=
        fun pids ns hns => (hbase pids).setTask ⟨by rw [hns]; exact hknown, hfds⟩
      split at hs
      · split at hs
        · cases hs
          exact hset _ _ hsame
        · cases hs
          exact hset _ _ hsame
      · cases hs
        exact hset _ _ hsame
    | true =>
      have hfresh : r.1.user = s.nextNs + 1 ∧ r.2 = s.nextNs + 1 := by
        rw [hr, newNamespace, hasked]
        exact ⟨rfl, rfl⟩
      simp only [hasked, if_true] at hs
      cases hcreate : (recordOwners s.users r.1 r'.1).create r'.1.user t.ns.user t.creds.euid
          t.creds.egid with
      | error e =>
        simp only [hcreate] at hs
        cases hs
        exact (hbase _).setTask ⟨hknown, hfds⟩
      | ok users =>
        simp only [hcreate] at hs
        obtain ⟨hdepth, e, rfl, hparent, -⟩ := UserNs.create_ok hcreate
        have hnew : r'.1.user = s.nextNs + 1 := huser.trans hfresh.1
        have hfr : (recordOwners s.users r.1 r'.1).Fresh r'.1.user e.parent := by
          constructor
          · intro m hm
            have := h.below m hm
            omega
          · have := h.known_le hknown
            omega
        have hsound : ∀ pids, ({ s with
            users := (recordOwners s.users r.1 r'.1).insert r'.1.user e, nextNs := r'.2,
            pidParent := pids } : State).Sound :=
          fun pids => (hbase pids).insert (show r'.1.user ≤ r'.2 by omega) hfr
            (hparent ▸ hknown) (hparent ▸ hdepth)
        have hset : ∀ pids (t' : Task), t'.ns.user = r'.1.user → t'.fds = t.fds →
            (({ s with
              users := (recordOwners s.users r.1 r'.1).insert r'.1.user e, nextNs := r'.2,
              pidParent := pids } : State).setTask i t').Sound := by
          intro pids t' hns hfds'
          refine (hsound pids).setTask ⟨?_, fun id hid => ?_⟩
          · rw [hns]
            exact .inr (by simp [Table.insert])
          · rw [hfds'] at hid
            exact (hsound pids).fds t (List.mem_of_getElem? ht) id hid
        split at hs
        · split at hs
          · cases hs
            exact hset _ _ rfl rfl
          · cases hs
            exact hset _ _ rfl rfl
        · cases hs
          exact hset _ _ rfl rfl

lemma State.Sound.step (h : s.Sound) {op : Op} (hs : s.step op = some s') : s'.Sound := by
  cases op with
  | fork i =>
    simp only [State.step, State.fork] at hs
    split at hs
    · cases hs
    rename_i t ht
    cases hs
    refine h.of_entry rfl (Nat.le_refl _) fun t' ht' => ?_
    rcases List.mem_append.mp ht' with hmem | hmem
    · exact ⟨h.user t' hmem, h.fds t' hmem⟩
    · obtain ⟨hknown, hfds⟩ := h.task ht
      rw [List.mem_singleton.mp hmem]
      exact ⟨hknown, hfds⟩
  | exit i =>
    obtain ⟨t, ht, rfl⟩ := Option.map_eq_some_iff.mp hs
    obtain ⟨hknown, hfds⟩ := h.task ht
    exact h.setTask ⟨hknown, hfds⟩
  | unshare i flags => exact h.unshare hs
  | openNamespace i pid kind =>
    obtain ⟨t, ht, hs⟩ := Option.bind_eq_some_iff.mp hs
    obtain ⟨ns, hns, rfl⟩ := Option.map_eq_some_iff.mp hs
    obtain ⟨hknown, hfds⟩ := h.task ht
    refine h.setTask ⟨hknown, fun id hid => ?_⟩
    rcases List.mem_append.mp hid with hid | hid
    · exact hfds id hid
    · cases List.mem_singleton.mp hid
      exact h.namespacesOf hknown hns
  | pidfdOpen i pid =>
    obtain ⟨t, ht, hs⟩ := Option.bind_eq_some_iff.mp hs
    split at hs
    · cases hs
      obtain ⟨hknown, hfds⟩ := h.task ht
      refine h.setTask ⟨hknown, fun id hid => hfds id ?_⟩
      simpa using hid
    · cases hs
  | setns i fd nstype =>
    obtain ⟨t, ht, hs⟩ := Option.bind_eq_some_iff.mp hs
    obtain ⟨hknown, hfds⟩ := h.task ht
    split at hs
    · cases hs
    rename_i t' hcall
    cases hs
    refine h.setTask ⟨?_, by rw [setns_fds hcall]; exact hfds⟩
    by_cases hne : t'.ns.user = t.ns.user
    · rw [hne]
      exact hknown
    obtain ⟨id, hid, hj⟩ := joins_user hcall hne
    rw [hid]
    cases hj with
    | namespaceFd hfd => exact hfds _ (List.mem_of_getElem? hfd)
    | pidfd _ htarget => exact h.namespacesOf hknown htarget

end NixVm.Ns
