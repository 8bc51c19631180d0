/-
The serial scheduler starves nobody.

While a task waits, nothing is picked that is ahead of it, so neither the floor nor any runtime
picked passes the larger of its own runtime and the floor. That bound stays, and each pick takes
one unit of the room that is left below it.
-/
import NixVm.Kernel.Fair

namespace NixVm.Fair

open List

variable {weight : Int → Nat} {s : Sched} {i j : Nat}

/-- A pick and what happens until the next: the charge, and tasks that park, wake and change. -/
structure Turn where
  now : Nat
  delta : Nat
  meanwhile : Nat → Task → Task

def Turn.change (o : Turn) (i : Nat) (t : Task) : Task :=
  { o.meanwhile i t with vruntime := t.vruntime }

def Sched.charged (weight : Int → Nat) (o : Turn) (s : Sched) (i : Nat) : Sched :=
  { s with procs := s.procs.modify i (·.map (chargeVruntime weight o.delta)) }

def Sched.turn (weight : Int → Nat) (s : Sched) (o : Turn) : Sched :=
  let p := s.pickSerialRunnable o.now
  let s := p.1.elim p.2 (p.2.charged weight o)
  { s with procs := s.procs.mapIdx fun i => (·.map (o.change i)) }

def picks (weight : Int → Nat) : Sched → List Turn → List (Option Nat)
  | _, [] => []
  | s, o :: os => (s.pickSerialRunnable o.now).1 :: picks weight (s.turn weight o) os

/-- At every pick the task can run, and what is picked is charged at least one unit. -/
def Stays (weight : Int → Nat) (i : Nat) : Sched → List Turn → Prop
  | _, [] => True
  | s, o :: os => ((s.expire o.now).task i).any Task.runnable = true ∧
    (∀ j, (s.pickSerialRunnable o.now).1 = some j →
      (s.pickSerialRunnable o.now).2.vruntime j < (s.turn weight o).vruntime j) ∧
    Stays weight i (s.turn weight o) os

def Sched.vr (s : Sched) (i : Nat) : Option Nat := (s.task i).map Task.vruntime

/-- The room that the tasks have below the larger of a task's runtime and the floor. -/
def Sched.room (s : Sched) (i : Nat) : Nat :=
  ∑ j ∈ Finset.range s.procs.length,
    (s.vr j).elim 0 (max (s.vruntime i) s.minVruntime + 1 - ·)

lemma vruntime_eq (s : Sched) (i : Nat) : s.vruntime i = (s.vr i).getD 0 := by
  unfold Sched.vruntime Sched.vr
  cases s.task i <;> rfl

lemma vr_expire (s : Sched) (now j : Nat) : (s.expire now).vr j = s.vr j := by
  have hexpire (t : Task) : (t.expire now).vruntime = t.vruntime := by
    unfold Task.expire
    split <;> rfl
  unfold Sched.vr Sched.task Sched.expire
  rw [getElem?_map]
  rcases s.procs[j]? with - | - | t
  · rfl
  · rfl
  · exact congrArg some (hexpire t)

lemma vr_modify (f : Task → Task) (m : Nat) (hij : i ≠ j) :
    Sched.vr ⟨s.procs.modify i (·.map f), m⟩ j = s.vr j := by
  unfold Sched.vr Sched.task
  simp [hij]

lemma vr_turn {o : Turn} (hbest : (s.expire o.now).best = some i) (hij : i ≠ j) :
    (s.turn weight o).vr j = s.vr j := by
  have hmeanwhile (s : Sched) :
      Sched.vr { s with procs := s.procs.mapIdx fun i => (·.map (o.change i)) } j = s.vr j := by
    unfold Sched.vr Sched.task
    rw [getElem?_mapIdx]
    rcases s.procs[j]? with - | - | t <;> rfl
  simp only [Sched.turn, Sched.pickSerialRunnable, hbest]
  rw [hmeanwhile]
  exact (vr_modify _ _ hij).trans ((vr_modify _ _ hij).trans (vr_expire ..))

lemma vruntime_admitFair {t : Task} (h : s.task i = some t) :
    (s.admitFair i).vruntime i = max t.vruntime s.minVruntime := by
  unfold Sched.task at h
  simp only [Sched.vruntime, Sched.task, Sched.admitFair, getElem?_modify_eq]
  rcases hp : s.procs[i]? with - | p
  · rw [hp] at h
    cases h
  rw [hp] at h
  cases h
  rfl

lemma lt_length {t : Task} (h : s.task i = some t) : i < s.procs.length := by
  by_contra hge
  rw [Sched.task, getElem?_eq_none (not_lt.mp hge)] at h
  cases h

lemma best_least (hi : (s.task i).any Task.runnable = true) : ∃ j t, s.best = some j ∧
    s.task j = some t ∧ max t.vruntime s.minVruntime ≤ max (s.vruntime i) s.minVruntime := by
  have hmem : i ∈ (List.range s.procs.length).filter fun i => (s.task i).any Task.runnable := by
    cases ht : s.task i with
    | none =>
      rw [ht] at hi
      cases hi
    | some t => exact mem_filter.mpr ⟨mem_range.mpr (lt_length ht), hi⟩
  cases hbest : s.best with
  | none =>
    rw [argmin_eq_none.mp hbest] at hmem
    cases hmem
  | some j =>
    have hrun := (mem_filter.mp (argmin_mem hbest)).2
    have hle := le_of_mem_argmin hmem hbest
    cases ht : s.task j with
    | none =>
      rw [ht] at hrun
      cases hrun
    | some t =>
      rw [Sched.vruntime, ht] at hle
      exact ⟨j, t, rfl, ht, hle⟩

lemma length_turn (s : Sched) (o : Turn) : (s.turn weight o).procs.length = s.procs.length := by
  simp only [Sched.turn, Sched.pickSerialRunnable, length_mapIdx]
  cases (s.expire o.now).best with
  | none => simp [Sched.expire]
  | some j => simp [Sched.charged, Sched.admitFair, Sched.expire]

lemma minVruntime_turn {o : Turn} (hbest : (s.expire o.now).best = some j) :
    (s.turn weight o).minVruntime = max (s.vruntime j) s.minVruntime := by
  simp only [Sched.turn, Sched.pickSerialRunnable, hbest]
  rw [vruntime_eq s, ← vr_expire s o.now, ← vruntime_eq]
  rfl

lemma room_turn {o : Turn} {v : Nat} (hbest : (s.expire o.now).best = some j) (hji : j ≠ i)
    (hv : s.vr j = some v) (hle : max v s.minVruntime ≤ max (s.vruntime i) s.minVruntime)
    (hcharge : max v s.minVruntime < (s.turn weight o).vruntime j) :
    (s.turn weight o).room i < s.room i := by
  have hbound : max ((s.turn weight o).vruntime i) (s.turn weight o).minVruntime =
      max (s.vruntime i) s.minVruntime := by
    rw [minVruntime_turn hbest, vruntime_eq, vr_turn hbest hji, ← vruntime_eq, vruntime_eq s j, hv]
    show max (s.vruntime i) (max v s.minVruntime) = _
    omega
  rw [vruntime_eq] at hcharge
  cases hv' : (s.turn weight o).vr j with
  | none =>
    rw [hv'] at hcharge
    cases hcharge
  | some v' =>
    rw [hv'] at hcharge
    have hlt : max (s.vruntime i) s.minVruntime + 1 - v' <
        max (s.vruntime i) s.minVruntime + 1 - v := by
      have : max v s.minVruntime < v' := hcharge
      omega
    unfold Sched.room
    rw [length_turn, hbound]
    refine Finset.sum_lt_sum (fun k _ => ?_) ⟨j, ?_, ?_⟩
    · by_cases hk : j = k
      · rw [← hk, hv, hv']
        exact hlt.le
      · rw [vr_turn hbest hk]
    · obtain ⟨t, ht, -⟩ := Option.map_eq_some_iff.mp hv
      exact Finset.mem_range.mpr (lt_length ht)
    · rw [hv, hv']
      exact hlt

lemma picked_of_room (os : List Turn) : ∀ {s : Sched}, Stays weight i s os → s.room i < os.length →
    some i ∈ picks weight s os := by
  induction os with
  | nil => exact fun _ h => absurd h (Nat.not_lt_zero _)
  | cons o os ih =>
    intro s ⟨hi, hcharge, hrest⟩ hroom
    obtain ⟨j, t, hbest, ht, hle⟩ := best_least hi
    by_cases hji : j = i
    · exact hji ▸ hbest ▸ mem_cons_self
    refine mem_cons_of_mem _ (ih hrest ?_)
    have hv : s.vr j = some t.vruntime := by
      rw [← vr_expire s o.now, Sched.vr, ht]
      rfl
    have hpick : (s.pickSerialRunnable o.now).2 = (s.expire o.now).admitFair j := by
      simp only [Sched.pickSerialRunnable, hbest]
      rfl
    have hgrow := hcharge j hbest
    rw [hpick, vruntime_admitFair ht] at hgrow
    rw [vruntime_eq, vr_expire, ← vruntime_eq] at hle
    have := room_turn hbest hji hv hle hgrow
    rw [length_cons] at hroom
    omega

lemma minVruntime_le_turn (s : Sched) (o : Turn) :
    s.minVruntime ≤ (s.turn weight o).minVruntime := by
  cases hbest : (s.expire o.now).best with
  | none =>
    simp only [Sched.turn, Sched.pickSerialRunnable, hbest]
    rfl
  | some j =>
    rw [minVruntime_turn hbest]
    exact le_max_right _ _

/-- **The scheduler starves nobody.** The floor never falls, and a task that can run at every pick
is picked before the room is used up. -/
theorem starves_nobody (weight : Int → Nat) (s : Sched) (i : Nat) (os : List Turn) :
    s.minVruntime ≤ (os.foldl (·.turn weight) s).minVruntime ∧
    (Stays weight i s os → s.room i < os.length → some i ∈ picks weight s os) := by
  refine ⟨?_, picked_of_room os⟩
  induction os generalizing s with
  | nil => exact le_rfl
  | cons o os ih => exact (minVruntime_le_turn s o).trans (ih _)

/-- Two tasks, the second of them a unit of runtime ahead. -/
def behind : Sched := ⟨[some ⟨true, false, false, true, none, none, 0, 0⟩,
  some ⟨true, false, false, true, none, none, 0, 1⟩], 0⟩

def busy : Turn := ⟨0, 1, fun _ t => t⟩

theorem starves_nobody_behind :
    (picks (fun _ => 1024) behind [busy, busy, busy, busy]).take 2 = [some 0, some 0] ∧
    some 1 ∈ picks (fun _ => 1024) behind [busy, busy, busy, busy] := by
  refine ⟨by decide, (starves_nobody _ behind 1 _).2 ?_ (by decide)⟩
  refine ⟨rfl, ?_, rfl, ?_, rfl, ?_, rfl, ?_, trivial⟩ <;>
  · rintro j ⟨⟩
    decide

end NixVm.Fair
