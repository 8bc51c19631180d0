/-
A lock word names the task that has the lock, so no two have it.

Every call that tells a task it has the lock found the word free, its owner dead, or the caller's
own tid in it.

A requeue does not look whether those it wakes wait for a lock. Such a waiter is told it has the
lock though the word names another. The other ways to get there are a flag that is set while the
word is not, a flag that is lost with a stand-in, and flags that outlast their call: in the handler
that interrupted it, or after an error on the way.
-/
import NixVm.Kernel.Futex

namespace NixVm.Futex

open Sys Option

def Task.Ok (u : Task) : Prop :=
  match u.call with
  | none => u.wait = none ∧ u.pi = false ∧ u.woken = false
  | some (.lockPi k) => u.wait = some k ∧ u.pi = true
  | some .wait => u.pi = false

/-- The task was handed the lock and has yet to return. -/
def Task.heir (u : Task) (k : Nat) : Prop := u.call = some (.lockPi k) ∧ u.woken = true

structure Sys.Safe (s : Sys) : Prop where
  zero : 0 ∉ s.table
  ok : ∀ t, (s.tasks t).Ok
  named : ∀ t k, s.holds t k = true → (s.words k).owner = t ∧ s.live t = true
  /-- And who was handed it. -/
  heirs : ∀ t k, s.live t = true → (s.tasks t).heir k → (s.words k).owner = t
  /-- And nobody else that lives. -/
  owners : ∀ k, (s.words k).owner = 0 ∨ s.holds (s.words k).owner k = true ∨
    s.live (s.words k).owner = false ∨ (s.tasks (s.words k).owner).heir k

variable {s s' : Sys} {t u k l : Nat} {w : Word}

lemma Sys.Safe.ne_zero (h : s.Safe) (ht : s.live t = true) : t ≠ 0 := by
  rintro rfl
  unfold live at ht
  simp [h.zero] at ht

lemma live_setTask {v : Task} (hv : v.alive = (s.tasks t).alive) :
    (s.setTask t v).live u = s.live u := by
  unfold live setTask
  dsimp only
  split
  next heq => rw [heq, hv]
  · rfl

lemma tasks_setTask {v : Task} : (s.setTask t v).tasks u = if u = t then v else s.tasks u := rfl

section

variable (h : s.Safe)
include h

/-- A call about one lock leaves the others alone, so only that one is looked at. -/
lemma Sys.Safe.only_one (htable : s'.table = s.table)
    (hlive : ∀ v, s'.live v = s.live v) (hok : ∀ v, (s'.tasks v).Ok)
    (hwords : ∀ l, l ≠ k → s'.words l = s.words l)
    (hholds : ∀ v l, l ≠ k → s'.holds v l = s.holds v l)
    (hheirs : ∀ v l, l ≠ k → ((s'.tasks v).heir l ↔ (s.tasks v).heir l))
    (hnamed : ∀ v, s'.holds v k = true → (s'.words k).owner = v ∧ s.live v = true)
    (hheir : ∀ v, s.live v = true → (s'.tasks v).heir k → (s'.words k).owner = v)
    (howner : (s'.words k).owner = 0 ∨ s'.holds (s'.words k).owner k = true ∨
      (s'.tasks (s'.words k).owner).heir k) : s'.Safe := by
  refine ⟨htable ▸ h.zero, hok, fun v l hv => ?_, fun v l hv hh => ?_, fun l => ?_⟩
  · rw [hlive]
    by_cases hl : l = k
    · subst hl
      exact hnamed v hv
    rw [hholds v l hl] at hv
    rw [hwords l hl]
    exact h.named v l hv
  · rw [hlive] at hv
    by_cases hl : l = k
    · subst hl
      exact hheir v hv hh
    · rw [hwords l hl]
      exact h.heirs v l hv ((hheirs v l hl).mp hh)
  by_cases hl : l = k
  · subst hl
    rcases howner with h0 | hh | hh
    · exact .inl h0
    · exact .inr (.inl hh)
    · exact .inr (.inr (.inr hh))
  · rw [hwords l hl, hlive, hholds _ l hl, hheirs _ l hl]
    exact h.owners l

lemma Sys.Safe.only (howner : (s.words k).owner = 0 ∨
    s.live (s.words k).owner = false ∨ (s.words k).owner = t) : (∀ v, s.holds v k = true → v = t) ∧
      ∀ v, s.live v = true → (s.tasks v).heir k → v = t := by
  have hnone : ∀ v, s.live v = true → (s.words k).owner = v → v = t := by
    intro v hv heq
    rcases howner with h0 | hdead | hself
    · exact absurd (heq.symm.trans h0) (h.ne_zero hv)
    · rw [heq, hv] at hdead
      cases hdead
    · exact heq.symm.trans hself
  refine ⟨fun v hv => ?_, fun v hv hh => hnone v hv (h.heirs v k hv hh)⟩
  have ⟨hown, hlv⟩ := h.named v k hv
  exact hnone v hlv hown

lemma Sys.Safe.acquired (ht : s.live t = true) (hw : w.owner = t)
    (hcall : ∀ l, (s.tasks t).heir l → l = k)
    (howner : (s.words k).owner = 0 ∨ s.live (s.words k).owner = false ∨
      (s.words k).owner = t) : (s.acquired t k w).Safe := by
  have ⟨hholders, hheirs⟩ := h.only howner
  have htask : ∀ v, (s.acquired t k w).tasks v = if v = t then { (s.tasks t) with
      wait := none, pi := false, woken := false, call := none, handler := false } else s.tasks v :=
    fun _ => rfl
  have hidle : ∀ l, ¬((s.acquired t k w).tasks t).heir l := by
    intro l hh
    rw [htask, if_pos rfl] at hh
    cases hh.1
  have hword : ((s.acquired t k w).words k).owner = t := by
    change (if k = k then w else s.words k).owner = t
    rw [if_pos rfl, hw]
  have hholds : ∀ v l, (s.acquired t k w).holds v l =
      if v = t ∧ l = k then true else s.holds v l := fun _ _ => rfl
  refine h.only_one rfl (fun v => ?_) (fun v => ?_) (fun l hl => if_neg hl)
    (fun v l hl => if_neg fun hc => hl hc.2) (fun v l hl => ?_) (fun v hv => ?_) (fun v hv hh => ?_)
    (.inr (.inl ?_))
  · exact live_setTask (t := t) (u := v) (v := { (s.tasks t) with
      wait := none, pi := false, woken := false, call := none, handler := false }) rfl
  · rw [htask]
    split
    · exact ⟨rfl, rfl, rfl⟩
    · exact h.ok v
  · by_cases hvt : v = t
    · subst hvt
      exact ⟨fun hh => absurd hh (hidle l), fun hh => absurd (hcall l hh) hl⟩
    · rw [htask, if_neg hvt]
  · rw [hword]
    rw [hholds] at hv
    have hvt : v = t := by
      split at hv
      next hc => exact hc.1
      · exact hholders v hv
    exact ⟨hvt.symm, hvt ▸ ht⟩
  · by_cases hvt : v = t
    · exact absurd (hvt ▸ hh) (hidle k)
    rw [htask, if_neg hvt] at hh
    exact absurd (hheirs v hv hh) hvt
  · rw [hword, hholds, if_pos ⟨rfl, rfl⟩]

lemma Sys.Safe.givenUp (hcall : (s.tasks t).call = none)
    (howner : (s.words k).owner = t) : ((s.setWord k .free).setHolds t k false).Safe := by
  have ⟨hholders, hheirs⟩ := h.only (.inr (.inr howner))
  have hholds : ∀ v l, ((s.setWord k .free).setHolds t k false).holds v l =
      if v = t ∧ l = k then false else s.holds v l := fun _ _ => rfl
  refine h.only_one rfl (fun _ => rfl) h.ok (fun l hl => if_neg hl)
    (fun v l hl => if_neg fun hc => hl hc.2) (fun _ _ _ => Iff.rfl) (fun v hv => ?_)
    (fun v hv hh => ?_) (.inl ?_)
  · rw [hholds] at hv
    split at hv
    · cases hv
    rename_i hvt
    exact absurd ⟨hholders v hv, rfl⟩ hvt
  · have hvt : v = t := hheirs v hv hh
    have hlock : (s.tasks t).call = some (.lockPi k) := hvt ▸ hh.1
    rw [hcall] at hlock
    cases hlock
  · change (if k = k then Word.free else s.words k).owner = 0
    rw [if_pos rfl]
    rfl

lemma Sys.Safe.handedOver (hcall : (s.tasks t).call = none)
    (howner : (s.words k).owner = t) (hu : (s.tasks u).call = some (.lockPi k)) (hw : w.owner = u) :
    (((s.setTask u { (s.tasks u) with woken := true }).setWord k w).setHolds t k false).Safe := by
  have ⟨hholders, hheirs⟩ := h.only (.inr (.inr howner))
  generalize hs' : ((s.setTask u { (s.tasks u) with woken := true }).setWord k w).setHolds
    t k false = s'
  have htask : ∀ v, s'.tasks v = if v = u then { (s.tasks u) with woken := true }
      else s.tasks v := by subst hs'; exact fun _ => rfl
  have hword : (s'.words k).owner = u := by
    subst hs'
    change (if k = k then w else s.words k).owner = u
    rw [if_pos rfl, hw]
  have hholds : ∀ v l, s'.holds v l = if v = t ∧ l = k then false else s.holds v l := by
    subst hs'
    exact fun _ _ => rfl
  refine h.only_one (by subst hs'; rfl) (fun v => ?_) (fun v => ?_)
    (by subst hs'; exact fun l hl => if_neg hl) (fun v l hl => ?_) (fun v l hl => ?_)
    (fun v hv => ?_) (fun v hv hh => ?_) (.inr (.inr ?_))
  · subst hs'
    exact live_setTask (t := u) (u := v) (v := { (s.tasks u) with woken := true }) rfl
  · rw [htask]
    split
    · have hok := h.ok u
      unfold Task.Ok at hok ⊢
      rw [hu] at hok ⊢
      exact hok
    · exact h.ok v
  · rw [hholds, if_neg fun hc => hl hc.2]
  · -- the one it is handed to waits for this lock and no other
    by_cases hvu : v = u
    · subst hvu
      have hother : (s.tasks v).call ≠ some (.lockPi l) := by
        rw [hu]
        exact fun heq => hl (Call.lockPi.inj (Option.some.inj heq)).symm
      rw [htask, if_pos rfl]
      exact ⟨fun hh => absurd hh.1 hother, fun hh => absurd hh.1 hother⟩
    · rw [htask, if_neg hvu]
  · rw [hholds] at hv
    split at hv
    · cases hv
    rename_i hvt
    exact absurd ⟨hholders v hv, rfl⟩ hvt
  · rw [hword]
    by_cases hvu : v = u
    · exact hvu.symm
    rw [htask, if_neg hvu] at hh
    have hvt : v = t := hheirs v hv hh
    have hlock : (s.tasks t).call = some (.lockPi k) := hvt ▸ hh.1
    rw [hcall] at hlock
    cases hlock
  · rw [hword, htask, if_pos rfl]
    exact ⟨hu, rfl⟩

lemma Sys.Safe.setTask {v : Task} (hok : v.Ok) (halive : v.alive = (s.tasks t).alive)
    (hnew : ∀ l, v.heir l → (s.tasks t).heir l) (hold : ∀ l, (s.tasks t).heir l → v.heir l) :
    (s.setTask t v).Safe := by
  refine ⟨h.zero, fun x => ?_, fun x l hx => ?_, fun x l hx hh => ?_, fun l => ?_⟩
  · rw [tasks_setTask]
    split
    · exact hok
    · exact h.ok x
  · rw [live_setTask halive]
    exact h.named x l hx
  · rw [live_setTask halive] at hx
    rw [tasks_setTask] at hh
    split at hh
    next heq =>
      subst heq
      exact h.heirs x l hx (hnew l hh)
    · exact h.heirs x l hx hh
  rw [live_setTask halive]
  rcases h.owners l with h0 | hh | hd | hheir
  · exact .inl h0
  · exact .inr (.inl hh)
  · exact .inr (.inr (.inl hd))
  refine .inr (.inr (.inr ?_))
  rw [tasks_setTask]
  split
  next heq => exact hold l (heq ▸ hheir)
  · exact hheir

omit h in
lemma Task.Ok.not_heir_of_idle {u : Task} (hcall : u.call = none) (l : Nat) : ¬u.heir l := by
  intro hh
  have := hh.1
  rw [hcall] at this
  cases this

lemma Sys.Safe.done (hno : ∀ l, ¬(s.tasks t).heir l) : (s.done t).Safe :=
  h.setTask ⟨rfl, rfl, rfl⟩ rfl (fun _ hh => by cases hh.1) fun l hh => absurd hh (hno l)

lemma Sys.Safe.setWord (hw : w.owner = (s.words k).owner) : (s.setWord k w).Safe := by
  have hword : ∀ l, ((s.setWord k w).words l).owner = (s.words l).owner := by
    intro l
    unfold Sys.setWord
    dsimp only
    split
    next heq => rw [heq, hw]
    · rfl
  refine ⟨h.zero, h.ok, fun v l hv => ?_, fun v l hv hh => ?_, fun l => ?_⟩
  · rw [hword]
    exact h.named v l hv
  · rw [hword]
    exact h.heirs v l hv hh
  · rw [hword]
    exact h.owners l

/-- A task that is in no call may return as it is. -/
lemma Sys.Safe.returned (hcall : (s.tasks t).call = none) : (s.returned t).Safe := by
  have hok := h.ok t
  unfold Task.Ok at hok
  rw [hcall] at hok
  exact h.setTask hok rfl (fun _ hh => by cases hh.1)
    fun l hh => absurd hh (Task.Ok.not_heir_of_idle hcall l)

lemma Sys.Safe.lockPi {p : Patience} (ht : s.live t = true)
    (hcall : (s.tasks t).call = none ∨
      (s.tasks t).call = some (.lockPi k) ∧ p ≠ .try ∧ p ≠ .badTimeout ∧ p ≠ .fault) :
    (s.lockPi t k p).Safe := by
  have honly : ∀ l, (s.tasks t).heir l → l = k := by
    intro l hh
    rcases hcall with hc | hc
    · exact absurd hh (Task.Ok.not_heir_of_idle hc l)
    · exact (Call.lockPi.inj (Option.some.inj (hc.1.symm.trans hh.1))).symm
  have hok := h.ok t
  unfold Sys.lockPi
  split
  · -- handed over: the word has the caller's tid
    rename_i hwoken
    have hheir : (s.tasks t).heir k := by
      rcases hcall with hc | hc
      · unfold Task.Ok at hok
        rw [hc] at hok
        rw [hok.2.2] at hwoken
        cases hwoken
      · exact ⟨hc.1, hwoken⟩
    have hown := h.heirs t k ht hheir
    exact h.acquired ht hown honly (.inr (.inr hown))
  rename_i hwoken
  have hno : ∀ l, ¬(s.tasks t).heir l := fun l hh => hwoken hh.2
  have htake : ∀ w : Word, w.owner = t → ((s.words k).owner = 0 ∨
      s.live (s.words k).owner = false) →
      (if p = .fault then s.done t else s.acquired t k w).Safe := by
    intro w hw howner
    split
    · exact h.done hno
    · exact h.acquired ht hw honly (howner.imp id .inl)
  dsimp only
  split
  next h0 => exact htake _ rfl (.inl h0)
  split
  · exact h.done hno
  split
  next hdead => exact htake _ rfl (.inr (by simpa using hdead))
  have hmarked := h.setWord (k := k) (w := { s.words k with waiters := true }) rfl
  cases p with
  | «try» => exact h.returned (hcall.resolve_right fun hc => hc.2.1 rfl)
  | badTimeout => exact h.returned (hcall.resolve_right fun hc => hc.2.2.1 rfl)
  | fault => exact h.returned (hcall.resolve_right fun hc => hc.2.2.2 rfl)
  | expired => exact h.done hno
  | interrupted => exact hmarked.done hno
  | restart | wait =>
    refine hmarked.setTask ?_ rfl (fun l hh => ?_) fun l hh => absurd hh (hno l)
    · exact ⟨rfl, rfl⟩
    · exact absurd hh.2 hwoken

lemma Sys.Safe.unlockPi {writes : Bool} (hcall : (s.tasks t).call = none)
    (hw : writes = false → ∀ u ∈ s.table, s.waiting k u = false) :
    (s.unlockPi t k writes).Safe := by
  unfold Sys.unlockPi
  split
  · exact h
  rename_i howner
  rw [ne_eq, not_not] at howner
  split
  · split
    · exact h.givenUp hcall howner
    · exact h
  rename_i u rest hfirst
  have hu : u ∈ s.table.filter fun u => s.waiting k u := hfirst ▸ List.mem_cons_self
  have hwait := (List.mem_filter.mp hu).2
  have huk : (s.tasks u).call = some (.lockPi k) := by
    have hok := h.ok u
    simp only [Sys.waiting, Bool.and_eq_true, decide_eq_true_eq] at hwait
    unfold Task.Ok at hok
    split at hok
    · rw [hwait.1.1] at hok
      cases hok.2.1
    next l hcall => rw [hcall, Option.some.inj (hok.1.symm.trans hwait.1.2)]
    · rw [hwait.1.1] at hok
      cases hok
  have hwrites : writes = true := by
    by_contra hno
    have := hw (by simpa using hno) u (List.mem_filter.mp hu).1
    rw [hwait] at this
    cases this
  rw [if_pos hwrites]
  exact h.handedOver hcall howner huk rfl

/-- The records of tasks that wait for no lock change, as wakes and requeues change them. -/
structure Plain (ts ts' : Nat → Task) : Prop where
  lock : ∀ t, (ts t).pi = true → ts' t = ts t
  idle : ∀ t, (ts t).call = none → ts' t = ts t
  same : ∀ t, (ts' t).alive = (ts t).alive ∧ (ts' t).pi = (ts t).pi ∧ (ts' t).call = (ts t).call

omit h in
lemma Plain.refl (ts : Nat → Task) : Plain ts ts :=
  ⟨fun _ _ => rfl, fun _ _ => rfl, fun _ => ⟨rfl, rfl, rfl⟩⟩

omit h in
lemma Plain.trans {ts ts' ts'' : Nat → Task} (h : Plain ts ts') (h' : Plain ts' ts'') :
    Plain ts ts'' := by
  refine ⟨fun t ht => ?_, fun t ht => ?_, fun t => ?_⟩
  · rw [h'.lock t ((h.same t).2.1.trans ht), h.lock t ht]
  · rw [h'.idle t ((h.same t).2.2.trans ht), h.idle t ht]
  exact ⟨(h'.same t).1.trans (h.same t).1, (h'.same t).2.1.trans (h.same t).2.1,
    (h'.same t).2.2.trans (h.same t).2.2⟩

omit h in
lemma Plain.one {ts : Nat → Task} {v : Task} (hpi : (ts t).pi = false)
    (hcall : (ts t).call ≠ none) (hv : v.alive = (ts t).alive ∧ v.pi = (ts t).pi ∧
      v.call = (ts t).call) : Plain ts fun x => if x = t then v else ts x := by
  refine ⟨fun x hx => ?_, fun x hx => ?_, fun x => ?_⟩
  · rw [if_neg]
    rintro rfl
    rw [hpi] at hx
    cases hx
  · rw [if_neg]
    rintro rfl
    exact hcall hx
  split
  next heq =>
    rw [heq]
    exact hv
  · exact ⟨rfl, rfl, rfl⟩

lemma Sys.Safe.plain {ts : Nat → Task} (hp : Plain s.tasks ts) :
    Sys.Safe { s with tasks := ts } := by
  have hlive : ∀ v, ({ s with tasks := ts } : Sys).live v = s.live v := by
    intro v
    unfold live
    rw [(hp.same v).1]
  have hheir : ∀ v l, (ts v).heir l ↔ (s.tasks v).heir l := by
    intro v l
    have hpi : (s.tasks v).call = some (.lockPi l) → ts v = s.tasks v := by
      intro hc
      have := h.ok v
      unfold Task.Ok at this
      rw [hc] at this
      exact hp.lock v this.2
    constructor
    · intro hh
      rwa [hpi ((hp.same v).2.2.symm.trans hh.1)] at hh
    · intro hh
      rwa [hpi hh.1]
  refine ⟨h.zero, fun v => ?_, fun v l hv => ?_, fun v l hv hh => ?_, fun l => ?_⟩
  · have hok := h.ok v
    change (ts v).Ok
    cases hc : (s.tasks v).call with
    | none =>
      rw [hp.idle v hc]
      exact hok
    | some c =>
      cases c with
      | lockPi l =>
        unfold Task.Ok at hok
        rw [hc] at hok
        rw [hp.lock v hok.2]
        unfold Task.Ok
        rw [hc]
        exact hok
      | wait =>
        unfold Task.Ok at hok ⊢
        rw [hc] at hok
        rw [(hp.same v).2.2, hc, (hp.same v).2.1]
        exact hok
  · rw [hlive]
    exact h.named v l hv
  · rw [hlive] at hv
    exact h.heirs v l hv ((hheir v l).mp hh)
  rw [hlive]
  rcases h.owners l with h0 | hh | hd | hh
  · exact .inl h0
  · exact .inr (.inl hh)
  · exact .inr (.inr (.inl hd))
  · exact .inr (.inr (.inr ((hheir _ l).mpr hh)))

end

lemma Sys.Safe.exit (h : s.Safe) : Sys.Safe { s.setTask t { (s.tasks t) with alive := false } with
    holds := fun v l => if v = t then false else s.holds v l } := by
  generalize hs' : ({ s.setTask t { (s.tasks t) with alive := false } with
    holds := fun v l => if v = t then false else s.holds v l } : Sys) = s'
  have htask : ∀ v, s'.tasks v = if v = t then { (s.tasks t) with alive := false }
      else s.tasks v := by subst hs'; exact fun _ => rfl
  have hword : s'.words = s.words := by subst hs'; rfl
  have hzero : 0 ∉ s'.table := by subst hs'; exact h.zero
  have hholds : ∀ v l, s'.holds v l = if v = t then false else s.holds v l := by
    subst hs'; exact fun _ _ => rfl
  have hother : ∀ v, v ≠ t → s'.live v = s.live v := by
    subst hs'
    intro v hv
    simp only [Sys.live, Sys.setTask, if_neg hv]
  have hself : s'.live t = false := by
    subst hs'
    simp [Sys.live, Sys.setTask]
  have hheir : ∀ v l, (s'.tasks v).heir l ↔ (s.tasks v).heir l := by
    intro v l
    rw [htask]
    split
    next heq =>
      rw [heq]
      exact Iff.rfl
    · exact Iff.rfl
  refine ⟨hzero, fun v => ?_, fun v l hv => ?_, fun v l hv hh => ?_, fun l => ?_⟩
  · rw [htask]
    split
    · exact h.ok t
    · exact h.ok v
  · rw [hholds] at hv
    split at hv
    · cases hv
    rename_i hvt
    rw [hword, hother v hvt]
    exact h.named v l hv
  · rw [hword]
    by_cases hvt : v = t
    · rw [hvt, hself] at hv
      cases hv
    · rw [hother v hvt] at hv
      exact h.heirs v l hv ((hheir v l).mp hh)
  rw [hword]
  by_cases howner : (s.words l).owner = t
  · rw [howner, hself]
    exact .inr (.inr (.inl rfl))
  · rw [hother _ howner, hholds, if_neg howner, hheir]
    exact h.owners l

/-- A requeue is not from a word on which somebody waits for the lock; a handler that interrupted a
`FUTEX_LOCK_PI` uses no futex, and the call made again finds its timeout and its word; an unlock
with waiters can write the word, and hands it to a task that is not being served. -/
def Sys.Sorted (s : Sys) : Op → Prop
  | .requeue source _ _ _ => ∀ t ∈ s.table, (s.tasks t).wait = some source → (s.tasks t).pi = false
  | .fastLock t _ | .fastUnlock t _ | .lockPi t _ _ | .wait t _ => (s.tasks t).handler = false
  | .again _ p => p ≠ .badTimeout ∧ p ≠ .fault
  | .unlockPi t k writes => (s.tasks t).handler = false ∧
      (writes = false → ∀ u ∈ s.table, s.waiting k u = false)
  | .unlockStandIn _ _ _ _ => False
  | _ => True

end NixVm.Futex
