/-
Ids that `alloc_pid` returns.

Until the counter has gone round nothing is compared: what makes an id fresh is that every id in a
record is below the counter (`Sys.Below`).
-/
import NixVm.Kernel.Tasks

namespace NixVm.Tasks

open List Option

/-- The ids of a task: its own, its thread group's, process group's and session's. -/
def Task.names (t : Task) (p : Nat) : Prop :=
  t.pid = p ∨ t.tgid = p ∨ t.pgidOf = p ∨ t.sidOf = p

structure Task.Below (t : Task) (n : Nat) : Prop where
  pid : t.pid < n
  tgid : t.tgid < n
  pgid : t.pgid < n
  sid : t.sid < n

variable {t : Task} {n : Nat}

lemma Task.Below.mono {m : Nat} (h : t.Below m) (hmn : m ≤ n) : t.Below n :=
  ⟨h.pid.trans_le hmn, h.tgid.trans_le hmn, h.pgid.trans_le hmn, h.sid.trans_le hmn⟩

lemma Task.Below.lt_of_names {p : Nat} (h : t.Below n) (hp : t.names p) : p < n := by
  have hpid := h.pid
  have htgid := h.tgid
  have hpgid := h.pgid
  have hsid := h.sid
  unfold Task.names Task.pgidOf Task.sidOf at hp
  split at hp <;> split at hp <;> omega

lemma Task.Below.uses_eq_false (h : t.Below n) : t.uses n = false := by
  have hpid := h.pid
  have htgid := h.tgid
  have hpgid := h.pgid
  have hsid := h.sid
  simp only [Task.uses, Bool.or_eq_false_iff, decide_eq_false_iff_not]
  omega

lemma Task.uses_of_names {p : Nat} (h : t.names p) : t.uses p = true := by
  unfold Task.names Task.pgidOf Task.sidOf at h
  unfold Task.uses
  split at h <;> split at h <;> simp <;> tauto

namespace Sys

/-- A record somewhere: in the table, stand-ins too, or with a worker. -/
def Record (s : Sys) (t : Task) : Prop :=
  (∃ i, s.slot i = some t) ∨ ∃ i o, s.out i = some o ∧ o.cur = t

/-- A task that is in its slot: it waits for its turn, is stopped or has not been reaped. -/
def Parked (s : Sys) (t : Task) : Prop := ∃ i, s.slot i = some t ∧ s.out i = none

def Running (s : Sys) (t : Task) : Prop := ∃ i o, s.out i = some o ∧ o.cur = t

/-- While the counter has not gone round, every id is below it. -/
structure Below (s : Sys) : Prop where
  pos : 2 ≤ s.nextPid
  ids : s.wrapped = false → ∀ t, s.Record t → t.Below s.nextPid

/-- The stand-in of every task that is out has the ids the task has by now. -/
def Synced (s : Sys) : Prop :=
  ∀ i o, s.out i = some o → ∃ t, s.slot i = some t ∧ ∀ p, o.cur.names p → t.names p

variable {i j p n pid : Nat} {x : Option Task} {t : Task} {o : Out}

lemma slot_setSlot {s : Sys}
    (h : (s.setSlot i x).slot j = some t) : x = some t ∨ s.slot j = some t := by
  unfold slot setSlot at h
  rw [getD_eq_getElem?_getD, List.getElem?_set] at h
  unfold slot
  split at h
  · split at h
    · exact .inl h
    · exact absurd h (by simp)
  · exact .inr h

lemma record_setSlot {s : Sys} (h : (s.setSlot i x).Record t) : x = some t ∨ s.Record t := by
  rcases h with ⟨j, hj⟩ | ho
  · exact (slot_setSlot hj).imp id fun hj => .inl ⟨j, hj⟩
  · exact .inr (.inr ho)

lemma record_setOut {s : Sys} {x : Option Out}
    (h : (s.setOut i x).Record t) : (∃ o, x = some o ∧ o.cur = t) ∨ s.Record t := by
  rcases h with hj | ⟨j, o, hj, rfl⟩
  · exact .inr (.inl hj)
  simp only [setOut] at hj
  split at hj
  · exact .inl ⟨o, hj, rfl⟩
  · exact .inr (.inr ⟨j, o, hj, rfl⟩)

variable {s s' : Sys}

lemma Below.setSlot (hb : s.Below)
    (hx : s.wrapped = false → ∀ t, x = some t → t.Below s.nextPid) : (s.setSlot i x).Below where
  pos := hb.pos
  ids hw t ht := (record_setSlot ht).elim (hx hw t) (hb.ids hw t)

lemma Below.setOut (hb : s.Below) {x : Option Out}
    (hx : s.wrapped = false → ∀ o, x = some o → o.cur.Below s.nextPid) : (s.setOut i x).Below where
  pos := hb.pos
  ids hw t ht := by
    rcases record_setOut ht with ⟨o, ho, rfl⟩ | ht
    · exact hx hw o ho
    · exact hb.ids hw t ht

lemma Below.setCur (hb : s.Below)
    (ht : s.wrapped = false → t.Below s.nextPid) : (s.setCur i o t).Below := by
  refine hb.setOut fun hw o' ho' => ?_
  cases ho'
  exact ht hw

lemma Below.cur (hb : s.Below) (ho : s.out i = some o)
    (hw : s.wrapped = false) : o.cur.Below s.nextPid :=
  hb.ids hw _ (.inr ⟨i, o, ho, rfl⟩)

lemma Below.inSlot (hb : s.Below) (ht : s.slot i = some t)
    (hw : s.wrapped = false) : t.Below s.nextPid :=
  hb.ids hw _ (.inl ⟨i, ht⟩)

lemma touch_counter (s : Sys) (j : Nat) (f : Task → Task) (log : List Update → List Update) :
    (s.touch j f log).nextPid = s.nextPid ∧ (s.touch j f log).wrapped = s.wrapped := by
  unfold touch
  split <;> exact ⟨rfl, rfl⟩

lemma Below.touch (hb : s.Below) {f : Task → Task} {log : List Update → List Update}
    (hf : s.wrapped = false → ∀ t, t.Below s.nextPid → (f t).Below s.nextPid) :
    (s.touch j f log).Below := by
  unfold Sys.touch
  split
  · exact hb
  next t ht =>
  refine Below.setOut (hb.setSlot fun hw u hu => ?_) fun hw o ho => ?_
  · cases hu
    exact hf hw t (hb.inSlot ht hw)
  obtain ⟨o', ho', rfl⟩ := map_eq_some_iff.mp ho
  have hcur : o'.cur.Below s.nextPid := hb.cur ho' hw
  exact hcur

lemma touchAll_ind {P : Sys → Prop} {sel : Task → Bool} {f : Task → Task}
    {log : List Update → List Update} (hs : P s)
    (hstep : ∀ s j t, P s → s.slot j = some t → sel t = true → P (s.touch j f log)) :
    P (s.touchAll sel f log) := by
  unfold touchAll
  generalize List.range s.procs.length = l
  induction l generalizing s with
  | nil => exact hs
  | cons j l ih =>
    rw [foldl_cons]
    split
    · next hsel =>
      have ⟨t, ht, hsel⟩ := (any_eq_true _ _).mp hsel
      exact ih (hstep s j t hs ht hsel)
    · exact ih hs

lemma Below.touchAll (hb : s.Below) (sel : Task → Bool) (f : Task → Task)
    (log : List Update → List Update)
    (hf : s.wrapped = false → ∀ t, t.Below s.nextPid → (f t).Below s.nextPid) :
    (s.touchAll sel f log).Below ∧ (s.touchAll sel f log).nextPid = s.nextPid ∧
      (s.touchAll sel f log).wrapped = s.wrapped := by
  refine touchAll_ind (P := fun u => u.Below ∧ u.nextPid = s.nextPid ∧ u.wrapped = s.wrapped)
    ⟨hb, rfl, rfl⟩ ?_
  rintro u j t ⟨hu, hn, hw⟩ - -
  refine ⟨hu.touch fun hwu => ?_, ?_, ?_⟩
  · rw [hn]
    exact hf (hw ▸ hwu)
  · rw [(touch_counter ..).1, hn]
  · rw [(touch_counter ..).2, hw]

lemma advance_pos (hb : 2 ≤ s.nextPid) : 2 ≤ s.advance.nextPid := by
  unfold advance
  split
  · exact le_refl 2
  · exact hb.trans (Nat.le_succ _)

lemma advance_unwrapped (h : s.advance.wrapped = false) :
    s.wrapped = false ∧ s.advance.nextPid = s.nextPid + 1 := by
  unfold advance at h ⊢
  split at h
  · cases h
  next hlt =>
  rw [if_neg hlt]
  exact ⟨h, rfl⟩

lemma advance_slot (i : Nat) : s.advance.slot i = s.slot i := by
  unfold advance
  split <;> rfl

lemma advance_out (i : Nat) : s.advance.out i = s.out i := by
  unfold advance
  split <;> rfl

lemma not_uses_of_inUse (h : s.inUse p = false) (ht : s.slot i = some t) : t.uses p = false := by
  unfold slot at ht
  rw [getD_eq_getElem?_getD] at ht
  obtain ⟨x, hx, rfl⟩ : ∃ x, s.procs[i]? = some x ∧ x = some t := by
    cases hx : s.procs[i]? with
    | none =>
      rw [hx] at ht
      cases ht
    | some x =>
      rw [hx] at ht
      exact ⟨x, rfl, ht⟩
  have hmem := mem_of_getElem? hx
  have := any_eq_false.mp h _ hmem
  simpa using this

lemma allocPid_spec : ∀ {n : Nat} {s s' : Sys} {p : Nat}, s.allocPid n = some (p, s') →
    ((s.wrapped = false ∧ p = s.nextPid) ∨ s.inUse p = false) ∧
      (∀ i, s'.slot i = s.slot i) ∧ (∀ i, s'.out i = s.out i) ∧
      (s'.wrapped = false → s.wrapped = false ∧ s'.nextPid = s.nextPid + 1 ∧ p = s.nextPid) := by
  intro n
  induction n with
  | zero =>
    intro s s' p h
    cases h
  | succ n ih =>
    intro s s' p h
    have hproc : s.advance.procs = s.procs := by
      unfold Sys.advance
      split <;> rfl
    have huse : ∀ q, s.advance.inUse q = s.inUse q := fun q => by
      unfold inUse
      rw [hproc]
    simp only [allocPid] at h
    split at h
    · next hok =>
      cases h
      refine ⟨?_, fun i => advance_slot i, fun i => advance_out i, fun hw => ?_⟩
      · rw [Bool.or_eq_true, Bool.not_eq_true', Bool.not_eq_true', huse] at hok
        exact hok.imp (fun hw => ⟨(advance_unwrapped hw).1, rfl⟩) id
      · have ⟨hw, hn⟩ := advance_unwrapped hw
        exact ⟨hw, hn, rfl⟩
    next hno =>
    -- the counter has gone round, here or before
    have hwr : s.advance.wrapped = true := by
      by_contra hc
      exact hno (by simp [hc])
    have ⟨hp, hslot, hout, hw⟩ := ih h
    refine ⟨.inr ?_, fun i => (hslot i).trans (advance_slot i),
      fun i => (hout i).trans (advance_out i), fun hw' => ?_⟩
    · rcases hp with ⟨hc, -⟩ | hp
      · rw [hwr] at hc
        cases hc
      · rw [← huse]
        exact hp
    · rw [(hw hw').1] at hwr
      cases hwr

lemma allocPid_pos : ∀ {n : Nat} {s s' : Sys} {p : Nat}, s.allocPid n = some (p, s') →
    2 ≤ s.nextPid → 2 ≤ s'.nextPid := by
  intro n
  induction n with
  | zero =>
    intro s s' p h
    cases h
  | succ n ih =>
    intro s s' p h hpos
    simp only [allocPid] at h
    split at h
    · cases h
      exact advance_pos hpos
    · exact ih h (advance_pos hpos)

lemma Below.allocPid (hb : s.Below) (h : s.allocPid n = some (p, s')) :
    s'.Below ∧ (s'.wrapped = false → p < s'.nextPid) := by
  obtain ⟨-, hslot, hout, hw⟩ := allocPid_spec h
  refine ⟨⟨allocPid_pos h hb.pos, fun hw' t ht => ?_⟩, fun hw' => ?_⟩
  · obtain ⟨hws, hn, -⟩ := hw hw'
    rw [hn]
    refine (hb.ids hws t ?_).mono (Nat.le_succ _)
    rcases ht with ⟨i, hi⟩ | ⟨i, o, hi, ho⟩
    · exact .inl ⟨i, (hslot i).symm.trans hi⟩
    · exact .inr ⟨i, o, (hout i).symm.trans hi, ho⟩
  · obtain ⟨-, hn, hp⟩ := hw hw'
    omega

lemma inUse_eq_false (h : ∀ i t, s.slot i = some t → t.uses p = false) : s.inUse p = false := by
  unfold inUse
  rw [List.any_eq_false]
  intro x hx
  obtain ⟨i, hi⟩ := List.getElem?_of_mem hx
  cases x with
  | none => simp
  | some t =>
    have ht : s.slot i = some t := by
      unfold slot
      rw [List.getD_eq_getElem?_getD, hi]
      rfl
    simpa using h i t ht

lemma allocPid_unwrapped (hb : s.Below) (hw : s.wrapped = false)
    (h : s.allocPid n = some (p, s')) : p = s.nextPid := by
  cases n with
  | zero => cases h
  | succ n =>
    have hfree : s.advance.inUse s.nextPid = false :=
      inUse_eq_false fun i t ht => (hb.inSlot ((advance_slot i).symm.trans ht) hw).uses_eq_false
    simp only [allocPid, hfree, Bool.not_false, Bool.or_true, if_true] at h
    cases h
    rfl

/-- `setpgid` names the caller's or target's own id, or one of some task's. -/
def Joins (s : Sys) : Op → Prop
  | .setpgid _ _ pgid => pgid = 0 ∨ s.wrapped = true ∨ ∃ t, s.Record t ∧ t.names pgid
  | _ => True

lemma Below.install (hb : s.Below) (ht : s.wrapped = false → t.Below s.nextPid) :
    (s.install t).Below := by
  unfold Sys.install
  split
  · next slot rest _ =>
    have h := hb.setSlot (i := slot) (x := some t) fun hw u hu => by
      cases hu
      exact ht hw
    exact ⟨h.pos, h.ids⟩
  refine ⟨hb.pos, fun hw u hu => ?_⟩
  rcases hu with ⟨i, hi⟩ | hu
  · unfold slot at hi
    rw [getD_eq_getElem?_getD, List.getElem?_append] at hi
    split at hi
    · exact hb.ids hw u (.inl ⟨i, by unfold slot; rw [getD_eq_getElem?_getD]; exact hi⟩)
    cases hk : i - s.procs.length with
    | zero =>
      rw [hk] at hi
      cases hi
      exact ht hw
    | succ k =>
      rw [hk] at hi
      cases hi
  · exact hb.ids hw u (.inr hu)

lemma below_child {c : Task} (hc : c.Below n) (hp : p < n) (thread parent : Bool)
    (mm limits : Nat) : (child c p thread parent mm limits).Below n := by
  have hpid := hc.pid
  have htgid := hc.tgid
  have hpgid := hc.pgid
  have hsid := hc.sid
  refine ⟨hp, ?_, ?_, ?_⟩
  · show (if thread = true then c.tgid else p) < n
    split <;> assumption
  · show c.pgidOf < n
    unfold Task.pgidOf
    split <;> assumption
  show c.sidOf < n
  unfold Task.sidOf
  split <;> assumption

lemma Below.fork (hb : s.Below) {thread parent vm : Bool}
    (h : s.fork i thread parent vm = some s') : s'.Below := by
  unfold Sys.fork at h
  split at h
  · next o p u ho ha =>
    have ⟨hu, hp⟩ := hb.allocPid ha
    have hout : u.out i = some o := ((allocPid_spec ha).2.2.1 i).trans ho
    split at h
    · cases h
      exact hu.install fun hw => below_child (hu.cur hout hw) (hp hw) ..
    cases h
    have hu' : { u with
        limits := fun k => if k = u.nextLimits then u.limits o.cur.rlimits else u.limits k
        nextLimits := u.nextLimits + 1
        nextMm := u.nextMm + 1 }.Below := ⟨hu.pos, hu.ids⟩
    exact hu'.install fun hw => below_child (hu.cur hout hw) (hp hw) ..
  · cases h

lemma Below.checkOut (hb : s.Below) (h : s.checkOut i = some s') : s'.Below := by
  unfold Sys.checkOut at h
  split at h
  · next t ht _ =>
    split at h
    · cases h
    cases h
    have h₁ : (s.setSlot i (if s.smp then some { t with inFlight := true } else none)).Below := by
      refine hb.setSlot fun hw u hu => ?_
      split at hu
      · cases hu
        have ⟨h1, h2, h3, h4⟩ := hb.inSlot ht hw
        exact ⟨h1, h2, h3, h4⟩
      · cases hu
    have h₂ := h₁.setOut (i := i)
      (x := some ⟨t, t.pending, t.ppid, t.frozen, fun g => (t.rtQueue g).length, []⟩)
      fun hw o ho => by
        cases ho
        exact hb.inSlot ht hw
    exact ⟨h₂.pos, h₂.ids⟩
  · cases h

lemma below_merged (h : o.cur.Below n) : (s.merged i o).Below n := by
  unfold merged
  split
  · split
    · exact ⟨h.pid, h.tgid, h.pgid, h.sid⟩
    · exact h
  · exact h

lemma Below.checkIn (hb : s.Below) (h : s.checkIn i = some s') : s'.Below := by
  obtain ⟨o, ho, rfl⟩ := map_eq_some_iff.mp h
  have h1 := hb.setSlot (i := i) (x := some (s.merged i o)) fun hw t ht => by
    cases ht
    exact below_merged (hb.cur ho hw)
  have h2 := h1.setOut (i := i) (x := none) fun _ o' ho' => by cases ho'
  exact ⟨h2.pos, h2.ids⟩

lemma lt_of_joins (hb : s.Below) {pgid : Nat} (hj : s.Joins (.setpgid i pid pgid))
    (hw : s.wrapped = false) : pgid < s.nextPid := by
  rcases hj with rfl | hc | ⟨t, ht, hn⟩
  · exact lt_of_lt_of_le Nat.zero_lt_two hb.pos
  · rw [hw] at hc
    cases hc
  · exact (hb.ids hw t ht).lt_of_names hn

lemma find_some (h : s.find pid = some j) : ∃ t, s.slot j = some t ∧ t.pid = pid := by
  have := List.find?_some h
  have ⟨t, ht, hp⟩ := (any_eq_true _ _).mp this
  exact ⟨t, ht, by simpa using hp⟩

lemma Below.setpgid (hb : s.Below) {pgid : Nat} (hj : s.Joins (.setpgid i pid pgid))
    (h : s.setpgid i pid pgid = some s') : s'.Below := by
  obtain ⟨o, ho, rfl⟩ := map_eq_some_iff.mp h
  have hlt := lt_of_joins hb hj
  split
  · refine hb.setCur fun hw => ?_
    have ⟨h1, h2, h3, h4⟩ := hb.cur ho hw
    refine ⟨h1, h2, ?_, h4⟩
    split
    · exact h1
    · exact hlt hw
  split
  · next j hf =>
    obtain ⟨t, ht, rfl⟩ := find_some hf
    refine hb.touch fun hw u hu => ⟨hu.pid, hu.tgid, ?_, hu.sid⟩
    split
    · exact (hb.inSlot ht hw).pid
    · exact hlt hw
  · exact hb

lemma below_postSiginfo (h : t.Below n) (sig q : Nat) : (t.postSiginfo sig q).Below n := by
  obtain ⟨h1, h2, h3, h4⟩ := h
  unfold Task.postSiginfo
  split
  · split
    · exact ⟨h1, h2, h3, h4⟩
    · exact ⟨h1, h2, h3, h4⟩
  · exact ⟨h1, h2, h3, h4⟩

lemma below_applyStopCont (h : t.Below n) (sig : Nat) : (t.applyStopCont sig).Below n :=
  ⟨h.pid, h.tgid, h.pgid, h.sid⟩

lemma below_post (h : t.Below n) (sig : Nat) (info : Option Nat) : (t.post sig info).Below n := by
  refine below_applyStopCont ?_ sig
  split
  · have h' : (t.setPending sig true).Below n := ⟨h.pid, h.tgid, h.pgid, h.sid⟩
    cases info with
    | none => exact h'
    | some q => exact below_postSiginfo h' sig q
  · exact h

lemma below_of_sameIds {u : Task} (h : sameIds t u = true) (ht : t.Below n) : u.Below n := by
  simp only [sameIds, Bool.and_eq_true, decide_eq_true_eq] at h
  obtain ⟨⟨⟨⟨⟨h1, h2⟩, h3⟩, h4⟩, -⟩, -⟩ := h
  exact ⟨h1 ▸ ht.pid, h2 ▸ ht.tgid, h3 ▸ ht.pgid, h4 ▸ ht.sid⟩

lemma Below.step (hb : s.Below) {op : Op} (hj : s.Joins op) (h : s.step op = some s') :
    s'.Below := by
  cases op with
  | checkOut i => exact hb.checkOut h
  | checkIn i => exact hb.checkIn h
  | fork i thread parent vm => exact hb.fork h
  | setpgid i pid pgid => exact hb.setpgid hj h
  | setsid i =>
    obtain ⟨o, ho, rfl⟩ := map_eq_some_iff.mp h
    refine hb.setCur fun hw => ?_
    obtain ⟨h1, h2, -, -⟩ := hb.cur ho hw
    exact ⟨h1, h2, h1, h1⟩
  | exit i =>
    obtain ⟨o, ho, rfl⟩ := map_eq_some_iff.mp h
    refine hb.setCur fun hw => ?_
    have ⟨h1, h2, h3, h4⟩ := hb.cur ho hw
    exact ⟨h1, h2, h3, h4⟩
  | exitGroup i =>
    obtain ⟨o, ho, rfl⟩ := map_eq_some_iff.mp h
    have ⟨ht, hn, hwr⟩ := hb.touchAll (fun t => t.tgid = o.cur.tgid && !t.zombie)
      (fun t => { t with zombie := true }) id
      fun _ t ht => ⟨ht.pid, ht.tgid, ht.pgid, ht.sid⟩
    refine ht.setCur fun hw => ?_
    rw [hn]
    have ⟨h1, h2, h3, h4⟩ := hb.cur ho (hwr ▸ hw)
    exact ⟨h1, h2, h3, h4⟩
  | reap j =>
    simp only [Sys.step, Sys.reap] at h
    split at h
    · split at h
      · cases h
        have h₁ := hb.setSlot (i := j) (x := none) fun _ t ht => by cases ht
        exact ⟨h₁.pos, h₁.ids⟩
      · cases h
    · cases h
  | kill i j sig info =>
    simp only [Sys.step, Sys.kill] at h
    split at h
    · cases h
      exact hb.touch fun _ t ht => below_post ht sig info
    · cases h
  | wake i j key =>
    simp only [Sys.step, Sys.wake] at h
    split at h
    · split at h
      · cases h
        exact hb.touch fun _ t ht => ⟨ht.pid, ht.tgid, ht.pgid, ht.sid⟩
      · cases h
    · cases h
  | setNice i j n =>
    obtain ⟨o, ho, rfl⟩ := map_eq_some_iff.mp h
    exact hb.touch fun _ t ht => ⟨ht.pid, ht.tgid, ht.pgid, ht.sid⟩
  | tsync i filter =>
    obtain ⟨o, ho, rfl⟩ := map_eq_some_iff.mp h
    have ⟨ht, hn, hwr⟩ := hb.touchAll (fun t => t.tgid = o.cur.tgid)
      (fun t => { t with seccomp := o.cur.seccomp ++ [filter] })
      (· ++ [.seccomp (o.cur.seccomp ++ [filter])])
      fun _ t ht => ⟨ht.pid, ht.tgid, ht.pgid, ht.sid⟩
    refine ht.setCur fun hw => ?_
    rw [hn]
    have ⟨h1, h2, h3, h4⟩ := hb.cur ho (hwr ▸ hw)
    exact ⟨h1, h2, h3, h4⟩
  | prlimit i j res val =>
    simp only [Sys.step, Sys.prlimit] at h
    split at h
    · cases h
      exact ⟨hb.pos, hb.ids⟩
    · cases h
  | own i u =>
    simp only [Sys.step, Sys.own] at h
    split at h
    · next o ho =>
      split at h
      · next hids =>
        cases h
        exact hb.setCur fun hw => below_of_sameIds hids (hb.cur ho hw)
      · cases h
    · cases h

lemma below_init (smp : Bool) : (init smp).Below where
  pos := le_refl 2
  ids _ t ht := by
    rcases ht with ⟨i, hi⟩ | ⟨i, o, hi, -⟩
    · cases i with
      | zero =>
        cases hi
        exact ⟨Nat.one_lt_two, Nat.one_lt_two, Nat.zero_lt_two, Nat.zero_lt_two⟩
      | succ i => cases hi
    · cases hi

/-- **A new id is free.** In every state of either scheduler it is none of a task in its slot, nor
of one being run if the counter has not gone round or the stand-ins are up to date. -/
theorem alloc_fresh {smp : Bool} {s s' : Sys} {p : Nat}
    (hr : Run.Reach step Joins (init smp) s) (ha : s.allocPid pidMax = some (p, s')) :
    (∀ t, s.Parked t → ¬ t.names p) ∧
      (s.wrapped = false ∨ s.Synced → ∀ t, s.Running t → ¬ t.names p) := by
  have hb : s.Below := hr.invariant (below_init smp) fun s op s' hs hj h => hs.step hj h
  rcases (allocPid_spec ha).1 with ⟨hw, rfl⟩ | hfree
  · constructor
    · rintro t ⟨i, hi, -⟩ hn
      exact absurd ((hb.inSlot hi hw).lt_of_names hn) (lt_irrefl _)
    · rintro - t ⟨i, o, ho, rfl⟩ hn
      exact absurd ((hb.cur ho hw).lt_of_names hn) (lt_irrefl _)
  constructor
  · rintro t ⟨i, hi, -⟩ hn
    have := not_uses_of_inUse hfree hi
    rw [Task.uses_of_names hn] at this
    cases this
  rintro hc t ⟨i, o, ho, rfl⟩ hn
  rcases hc with hw | hsync
  · rw [allocPid_unwrapped hb hw ha] at hn
    exact absurd ((hb.cur ho hw).lt_of_names hn) (lt_irrefl _)
  obtain ⟨t, ht, hall⟩ := hsync i o ho
  have := not_uses_of_inUse hfree ht
  rw [Task.uses_of_names (hall p hn)] at this
  cases this

theorem alloc_fresh_third : ∃ s s' : Sys, Run.Reach step Joins (init true) s ∧
    s.allocPid pidMax = some (3, s') ∧ (∀ t, s.Parked t → ¬ t.names 3) ∧
      ∀ t, s.Running t → ¬ t.names 3 := by
  have hcan : Run.Allowed step Joins [.checkOut 0, .fork 0 false false false] (init true) :=
    ⟨trivial, fun _ _ => ⟨trivial, fun _ _ => trivial⟩⟩
  have hr : ∃ s, Run.Reach step Joins (init true) s ∧ s.wrapped = false ∧
      ∃ s', s.allocPid pidMax = some (3, s') :=
    ⟨_, .of_exec _ rfl hcan, rfl, _, rfl⟩
  obtain ⟨s, hr, hw, s', ha⟩ := hr
  have h := alloc_fresh hr ha
  exact ⟨s, s', hr, ha, h.1, h.2 (.inl hw)⟩

/-- The first process joins group 2, which does not exist, and its next child gets id 2. -/
theorem alloc_taken : ∃ s s' : Sys,
    Run.Reach step (fun _ _ => True) (init false) s ∧ s.allocPid pidMax = some (2, s') ∧
      ∃ t, s.Running t ∧ t.names 2 :=
  ⟨_, _, .of_exec_free [.checkOut 0, .setpgid 0 0 2] rfl, rfl, _, ⟨0, _, rfl, rfl⟩,
    .inr (.inr (.inl rfl))⟩

end Sys

end NixVm.Tasks
