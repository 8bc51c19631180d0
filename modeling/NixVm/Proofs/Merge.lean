/-
What the check-in of the SMP scheduler keeps of the changes to a stand-in.

The stand-in starts as a copy of the record, so what was posted since is found by comparing it with
what the worker noted (`StandIn`). The limits are behind a pointer that both copies have.
-/
import NixVm.Proofs.Pids

namespace NixVm.Tasks

open List Update Option

/-! ### What a log asks for -/

def Update.info? (sig : Nat) : Update → Option Nat
  | .info s q => if s = sig then some q else none
  | _ => none

def Update.queue? (sig : Nat) : Update → Option Nat
  | .queue s q => if s = sig then some q else none
  | _ => none

def Update.pgid? : Update → Option Nat
  | .pgid g => some g
  | _ => none

def Update.nice? : Update → Option Int
  | .nice n => some n
  | _ => none

def Update.seccomp? : Update → Option (List Nat)
  | .seccomp l => some l
  | _ => none

/-- The updates are in the record: of several that set one field the last one. -/
structure Present (t : Task) (log : List Update) : Prop where
  signal : ∀ sig, .signal sig ∈ log → t.pending sig = true
  info : ∀ sig q, (log.filterMap (Update.info? sig)).getLast? = some q → t.siginfo sig = some q
  queue : ∀ sig, log.filterMap (Update.queue? sig) <:+ t.rtQueue sig
  woken : .woken ∈ log → t.futexWoken = true
  pgid : ∀ g, (log.filterMap Update.pgid?).getLast? = some g → t.pgid = g
  nice : ∀ n, (log.filterMap Update.nice?).getLast? = some n → t.nice = n
  seccomp : ∀ l, (log.filterMap Update.seccomp?).getLast? = some l → t.seccomp = l

def Update.isSignal : Update → Bool
  | .signal _ | .info _ _ | .queue _ _ => true
  | _ => false

lemma filterMap_eq_nil_of_isSignal {α : Type} {f : Update → Option α} {log : List Update}
    (h : ∀ u ∈ log, u.isSignal = true) (hf : ∀ u, u.isSignal = true → f u = none) :
    log.filterMap f = [] := by
  rw [filterMap_eq_nil_iff]
  exact fun u hu => hf u (h u hu)

lemma filterMap_filter_eq {α : Type} {f : Update → Option α} {p : Update → Bool}
    (h : ∀ u, p u = false → f u = none) (log : List Update) :
    (log.filter p).filterMap f = log.filterMap f := by
  induction log with
  | nil => rfl
  | cons u log ih =>
    cases hp : p u with
    | true => rw [filter_cons_of_pos hp, filterMap_cons, filterMap_cons, ih]
    | false => rw [filter_cons_of_neg (by simp [hp]), filterMap_cons_none (h u hp), ih]

/-! ### A stand-in and the record it stands for -/

structure StandIn (o : Out) (t : Task) : Prop where
  only : ∀ u ∈ o.log, u.isSignal = true
  signal : ∀ sig, .signal sig ∈ o.log → t.pending sig = true ∧ o.pending sig = false
  posted : ∀ sig q, .info sig q ∈ o.log → .signal sig ∈ o.log ∧ 1 ≤ sig ∧ sig < SIGRTMIN
  info : ∀ sig q, (o.log.filterMap (Update.info? sig)).getLast? = some q → t.siginfo sig = some q
  queue : ∀ sig, ∃ l, l.length = o.rtLens sig ∧
    t.rtQueue sig = l ++ o.log.filterMap (Update.queue? sig)
  rlimits : t.rlimits = o.cur.rlimits
  inFlight : t.inFlight = true

variable {sig : Nat} {o : Out} {t : Task}

lemma info_mem_of_getLast? {log : List Update} {q : Nat}
    (h : (log.filterMap (info? sig)).getLast? = some q) : .info sig q ∈ log := by
  have hmem := mem_of_getLast? h
  have ⟨u, hu, hq⟩ := mem_filterMap.mp hmem
  cases u with
  | info s r =>
    simp only [info?] at hq
    split at hq
    · next hs =>
      cases hq
      exact hs ▸ hu
    · cases hq
  | signal | queue | woken | pgid | nice | seccomp => cases hq

lemma StandIn.present (h : StandIn o t) : Present (Sys.fold o t) o.log where
  signal sig hs := by
    have ⟨hp, hn⟩ := h.signal sig hs
    simp [Sys.fold, hp, hn]
  info sig q hq := by
    have ⟨hs, h1, h2⟩ := h.posted sig q (info_mem_of_getLast? hq)
    have ⟨hp, hn⟩ := h.signal sig hs
    simp [Sys.fold, h1, h2, hp, hn, h.info sig q hq]
  queue sig := by
    have ⟨l, hl, hq⟩ := h.queue sig
    simp only [Sys.fold]
    rw [hq, ← hl, drop_left]
    exact suffix_append ..
  woken hw := by
    cases h.only _ hw
  pgid g hg := by
    rw [filterMap_eq_nil_of_isSignal h.only (fun u hu => by cases u <;> trivial)] at hg
    cases hg
  nice n hn := by
    rw [filterMap_eq_nil_of_isSignal h.only (fun u hu => by cases u <;> trivial)] at hn
    cases hn
  seccomp l hl := by
    rw [filterMap_eq_nil_of_isSignal h.only (fun u hu => by cases u <;> trivial)] at hl
    cases hl

lemma StandIn.congr {o' : Out} {t' : Task} (h : StandIn o t) (hlog : o'.log = o.log)
    (hpend : o'.pending = o.pending) (hlens : o'.rtLens = o.rtLens)
    (hlim : o'.cur.rlimits = o.cur.rlimits) (h1 : t'.pending = t.pending)
    (h2 : t'.siginfo = t.siginfo) (h3 : t'.rtQueue = t.rtQueue) (h4 : t'.rlimits = t.rlimits)
    (h5 : t'.inFlight = t.inFlight) : StandIn o' t' where
  only := hlog ▸ h.only
  signal := by
    rw [hlog, h1, hpend]
    exact h.signal
  posted := hlog ▸ h.posted
  info := by
    rw [hlog, h2]
    exact h.info
  queue := by
    rw [hlog, h3, hlens]
    exact h.queue
  rlimits := by rw [h4, hlim, h.rlimits]
  inFlight := h5.trans h.inFlight

/-! ### Posting a signal to a stand-in -/

lemma cancels_self (sig : Nat) : cancels sig sig = false := by
  unfold cancels
  split
  · next h =>
    rw [h]
    rfl
  · next h => simp [h]

lemma Task.raises_inFlight (h : t.inFlight = true) (sig : Nat) :
    t.raises sig = (1 ≤ sig && sig ≤ NSIG : Bool) := by
  simp [Task.raises, Task.discards, h]

lemma Task.postSiginfo_pending (t : Task) (sig q : Nat) :
    (t.postSiginfo sig q).pending = t.pending := by
  unfold Task.postSiginfo
  split
  · split <;> rfl
  · rfl

lemma Task.postSiginfo_same (t : Task) (sig q : Nat) :
    (t.postSiginfo sig q).rlimits = t.rlimits ∧ (t.postSiginfo sig q).inFlight = t.inFlight := by
  unfold Task.postSiginfo
  split
  · split <;> exact ⟨rfl, rfl⟩
  · exact ⟨rfl, rfl⟩

lemma Task.post_same (t : Task) (sig : Nat) (info : Option Nat) :
    (t.post sig info).rlimits = t.rlimits ∧ (t.post sig info).inFlight = t.inFlight := by
  simp only [Task.post, Task.applyStopCont]
  split
  · cases info with
    | none => exact ⟨rfl, rfl⟩
    | some q => exact Task.postSiginfo_same (t.setPending sig true) sig q
  · exact ⟨rfl, rfl⟩

lemma Task.post_pending (t : Task) (sig : Nat) (info : Option Nat) (g : Nat) :
    (t.post sig info).pending g =
      ((t.pending g || (t.raises sig && decide (g = sig))) && !cancels sig g) := by
  simp only [Task.post, Task.applyStopCont]
  split
  · next hr =>
    have hset : (t.setPending sig true).pending g = (t.pending g || decide (g = sig)) := by
      simp only [Task.setPending]
      split
      · next hg => simp [hg]
      · next hg => simp [hg]
    cases info with
    | none => simp only [hr, Bool.true_and, hset]
    | some q => simp only [Task.postSiginfo_pending, hr, Bool.true_and, hset]
  · next hr => simp [hr]

lemma Task.post_siginfo (t : Task) (sig : Nat) (info : Option Nat) (g q : Nat)
    (h : ((t.posted sig info).filterMap (info? g)).getLast?.or (t.siginfo g) = some q) :
    (t.post sig info).siginfo g = some q := by
  simp only [Task.post, Task.applyStopCont]
  unfold Task.posted at h
  by_cases hr : t.raises sig = true
  · rw [if_pos hr] at h ⊢
    cases info with
    | none => simpa [info?, Task.setPending] using h
    | some r =>
      by_cases hrt : SIGRTMIN ≤ sig
      · simp only [hrt, if_true, Task.postSiginfo] at h ⊢
        by_cases hq : t.queued < MAX_QUEUED
        · have hq' : (t.setPending sig true).queued < MAX_QUEUED := hq
          rw [if_pos hq']
          rw [if_pos hq, filterMap_cons_none rfl, filterMap_cons_none rfl] at h
          exact h
        have hq' : ¬ (t.setPending sig true).queued < MAX_QUEUED := hq
        rw [if_neg hq']
        rw [if_neg hq, filterMap_cons_none rfl] at h
        exact h
      simp only [hrt, if_false, Task.postSiginfo] at h ⊢
      by_cases hg : g = sig
      · simp only [hg, if_true]
        simpa [info?, hg] using h
      have hg' : ¬ sig = g := fun hc => hg hc.symm
      simp only [hg, if_false]
      simpa [info?, hg', Task.setPending] using h
  · rw [if_neg hr] at h ⊢
    simpa using h

lemma Task.post_rtQueue (t : Task) (sig : Nat) (info : Option Nat) (g : Nat) :
    (t.post sig info).rtQueue g = t.rtQueue g ++ (t.posted sig info).filterMap (queue? g) := by
  simp only [Task.post, Task.applyStopCont]
  unfold Task.posted
  by_cases hr : t.raises sig = true
  · rw [if_pos hr, if_pos hr]
    cases info with
    | none => simp [queue?, Task.setPending]
    | some r =>
      by_cases hrt : SIGRTMIN ≤ sig
      · simp only [hrt, if_true, Task.postSiginfo]
        by_cases hq : t.queued < MAX_QUEUED
        · have hq' : (t.setPending sig true).queued < MAX_QUEUED := hq
          rw [if_pos hq', if_pos hq]
          by_cases hg : g = sig
          · simp [queue?, hg, Task.setPending, filterMap_cons]
          have hg' : ¬ sig = g := fun hc => hg hc.symm
          simp [queue?, hg, hg', Task.setPending]
        · have hq' : ¬ (t.setPending sig true).queued < MAX_QUEUED := hq
          rw [if_neg hq', if_neg hq]
          simp [queue?, Task.setPending]
      · simp [hrt, Task.postSiginfo, queue?, Task.setPending]
  · rw [if_neg hr, if_neg hr]
    simp

lemma mem_posted {info : Option Nat} {u : Update} (h : u ∈ t.posted sig info) :
    t.raises sig = true ∧ (u = .signal sig ∨ (∃ q, u = .info sig q ∧ sig < SIGRTMIN) ∨
      ∃ q, u = .queue sig q) := by
  unfold Task.posted at h
  split at h
  · next hr =>
    refine ⟨hr, ?_⟩
    rcases mem_cons.mp h with rfl | h
    · exact .inl rfl
    cases info with
    | none => cases h
    | some q =>
      simp only at h
      split at h
      · split at h
        · exact .inr (.inr ⟨q, mem_singleton.mp h⟩)
        · cases h
      · next hlt => exact .inr (.inl ⟨q, mem_singleton.mp h, Nat.lt_of_not_le hlt⟩)
  · cases h

lemma signal_mem_posted {info : Option Nat} (h : t.raises sig = true) :
    .signal sig ∈ t.posted sig info := by
  unfold Task.posted
  rw [if_pos h]
  exact mem_cons_self

def afterPost (log : List Update) (t : Task) (sig : Nat) (info : Option Nat) : List Update :=
  log.filter (fun u => !u.cancelledBy sig) ++ t.posted sig info

lemma StandIn.post (h : StandIn o t) (info : Option Nat) (hnew : o.pending sig = false) :
    StandIn { o with log := afterPost o.log t sig info } (t.post sig info) where
  only u hu := by
    rcases mem_append.mp hu with hu | hu
    · exact h.only u (mem_of_mem_filter hu)
    · obtain ⟨-, rfl | ⟨q, rfl, -⟩ | ⟨q, rfl⟩⟩ := mem_posted hu <;> rfl
  signal g hg := by
    rw [Task.post_pending]
    rcases mem_append.mp hg with hg | hg
    · have ⟨hg, hc⟩ := mem_filter.mp hg
      have ⟨hp, hn⟩ := h.signal g hg
      have hc : cancels sig g = false := by simpa [cancelledBy] using hc
      exact ⟨by simp [hp, hc], hn⟩
    obtain ⟨hr, hg | ⟨q, hg, -⟩ | ⟨q, hg⟩⟩ := mem_posted hg
    · cases hg
      exact ⟨by simp [hr, cancels_self], hnew⟩
    · cases hg
    · cases hg
  posted g q hq := by
    rcases mem_append.mp hq with hq | hq
    · have ⟨hq, hc⟩ := mem_filter.mp hq
      have ⟨hs, hb⟩ := h.posted g q hq
      exact ⟨mem_append_left _ (mem_filter.mpr ⟨hs, hc⟩), hb⟩
    obtain ⟨hr, hg | ⟨r, hg, hlt⟩ | ⟨r, hg⟩⟩ := mem_posted hq
    · cases hg
    · cases hg
      have hpos : 1 ≤ sig := by
        rw [Task.raises_inFlight h.inFlight] at hr
        simp only [Bool.and_eq_true, decide_eq_true_eq] at hr
        exact hr.1
      exact ⟨mem_append_right _ (signal_mem_posted hr), hpos, hlt⟩
    · cases hg
  info g q hq := by
    refine Task.post_siginfo t sig info g q ?_
    simp only [afterPost, filterMap_append, List.getLast?_append] at hq
    -- an entry of this post comes last; otherwise one that was there before
    cases hl : ((t.posted sig info).filterMap (info? g)).getLast? with
    | some r =>
      rw [hl] at hq
      exact hq
    | none =>
      rw [hl] at hq
      refine h.info g q ?_
      have hmem := info_mem_of_getLast? hq
      obtain ⟨-, hc⟩ := mem_filter.mp hmem
      have hc : cancels sig g = false := by simpa [cancelledBy] using hc
      rw [← hq]
      refine congrArg List.getLast? (filterMap_filter_eq (fun u hu => ?_) o.log).symm
      cases u with
      | info s r =>
        have hs : cancels sig s = true := by simpa [cancelledBy] using hu
        refine if_neg fun hsg => ?_
        rw [hsg, hc] at hs
        cases hs
      | signal | queue | woken | pgid | nice | seccomp => rfl
  queue g := by
    have ⟨l, hl, hq⟩ := h.queue g
    refine ⟨l, hl, ?_⟩
    rw [Task.post_rtQueue, hq, append_assoc, afterPost, filterMap_append]
    congr 2
    refine (filterMap_filter_eq (fun u hu => ?_) o.log).symm
    cases u with
    | queue s r => cases hu
    | signal | info | woken | pgid | nice | seccomp => rfl
  rlimits := (Task.post_same t sig info).1.trans h.rlimits
  inFlight := (Task.post_same t sig info).2.trans h.inFlight

namespace Sys

variable {s s' : Sys}

/-! ### The slots -/

variable {i j : Nat} {t : Task} {o : Out}

lemma slot_lt (h : s.slot i = some t) : i < s.procs.length := by
  by_contra hc
  unfold slot at h
  rw [getD_eq_getElem?_getD, List.getElem?_eq_none (Nat.le_of_not_lt hc)] at h
  cases h

lemma slot_setSlot_self (hi : i < s.procs.length) (x : Option Task) :
    (s.setSlot i x).slot i = x := by
  unfold slot setSlot
  rw [getD_eq_getElem?_getD, List.getElem?_set_self hi]
  rfl

lemma slot_setSlot_ne (h : j ≠ i) (x : Option Task) : (s.setSlot i x).slot j = s.slot j := by
  unfold slot setSlot
  rw [getD_eq_getElem?_getD, List.getElem?_set_ne h.symm, getD_eq_getElem?_getD]

lemma setOut_self (i : Nat) (o : Option Out) : (s.setOut i o).out i = o := by
  simp [setOut]

lemma setOut_ne (h : j ≠ i) (o : Option Out) : (s.setOut i o).out j = s.out j := by
  simp [setOut, h]

structure Free (s : Sys) : Prop where
  empty : ∀ j ∈ s.freeSlots, s.slot j = none
  once : s.freeSlots.Nodup

/-- Every task that is out has its stand-in in its slot; but for `i`. -/
structure KeptBut (s : Sys) (i : Nat) (o : Out) : Prop where
  smp : s.smp = true
  free : s.Free
  others : ∀ j o', s.out j = some o' → j ≠ i → ∃ t, s.slot j = some t ∧ StandIn o' t
  own : ∃ t, s.slot i = some t ∧ StandIn o t

structure Kept (s : Sys) : Prop where
  smp : s.smp = true
  free : s.Free
  standIn : ∀ i o, s.out i = some o → ∃ t, s.slot i = some t ∧ StandIn o t

lemma Kept.keptBut (h : s.Kept) (ho : s.out i = some o) : s.KeptBut i o :=
  ⟨h.smp, h.free, fun j o' ho' _ => h.standIn j o' ho', h.standIn i o ho⟩

lemma KeptBut.setCur (h : s.KeptBut i o)
    (ht : t.rlimits = o.cur.rlimits) : (s.setCur i o t).Kept where
  smp := h.smp
  free := ⟨h.free.empty, h.free.once⟩
  standIn j o' ho' := by
    by_cases hj : j = i
    · subst hj
      obtain ⟨u, hu, hst⟩ := h.own
      have ho' : some { o with cur := t } = some o' := (setOut_self j _).symm.trans ho'
      cases ho'
      exact ⟨u, hu, hst.congr rfl rfl rfl ht rfl rfl rfl rfl rfl⟩
    · exact h.others j o' ((setOut_ne hj _).symm.trans ho') hj

lemma Free.setSlot (h : s.Free) {u : Task} (ht : s.slot j = some t) :
    (s.setSlot j (some u)).Free where
  empty k hk := by
    have hkj : k ≠ j := by
      rintro rfl
      rw [h.empty k hk] at ht
      cases ht
    rw [slot_setSlot_ne hkj]
    exact h.empty k hk
  once := h.once

/-! ### A change to one record in the table -/

variable {f : Task → Task} {log : List Update → List Update}

lemma touch_out_ne {k : Nat} (h : k ≠ j) : (s.touch j f log).out k = s.out k := by
  unfold touch
  split
  · rfl
  · exact setOut_ne h _

lemma touch_out_self (ht : s.slot j = some t) :
    (s.touch j f log).out j = (s.out j).map fun o => { o with log := log o.log } := by
  unfold touch
  rw [ht]
  exact setOut_self j _

lemma touch_slot_ne {k : Nat} (h : k ≠ j) : (s.touch j f log).slot k = s.slot k := by
  unfold touch
  split
  · rfl
  · exact slot_setSlot_ne h _

lemma touch_slot_self (ht : s.slot j = some t) : (s.touch j f log).slot j = some (f t) := by
  unfold touch
  rw [ht]
  exact slot_setSlot_self (slot_lt ht) _

lemma touch_free (h : s.Free) (j : Nat) : (s.touch j f log).Free := by
  unfold touch
  split
  · exact h
  · next t ht => exact ⟨(h.setSlot ht).empty, h.once⟩

lemma touch_smp (j : Nat) : (s.touch j f log).smp = s.smp := by
  unfold touch
  split <;> rfl

section

variable (h : s.Kept)
include h

lemma Kept.touch (hf : ∀ o t, s.out j = some o → s.slot j = some t → StandIn o t →
      StandIn { o with log := log o.log } (f t)) : (s.touch j f log).Kept where
  smp := (touch_smp j).trans h.smp
  free := touch_free h.free j
  standIn k o ho := by
    by_cases hk : k = j
    · subst hk
      cases ht : s.slot k with
      | none =>
        have hsame : s.touch k f log = s := by
          unfold Sys.touch
          rw [ht]
        rw [hsame] at ho ⊢
        exact h.standIn k o ho
      | some t =>
        rw [touch_out_self ht] at ho
        obtain ⟨o', ho', rfl⟩ := map_eq_some_iff.mp ho
        have ⟨u, hu, hst⟩ := h.standIn k o' ho'
        rw [ht] at hu
        cases hu
        exact ⟨f t, touch_slot_self ht, hf o' t ho' ht hst⟩
    · rw [touch_out_ne hk] at ho
      rw [touch_slot_ne hk]
      exact h.standIn k o ho

lemma Kept.touch_in (hj : s.out j = none) (f : Task → Task)
    (log : List Update → List Update) : (s.touch j f log).Kept :=
  h.touch fun o _ ho => by
    rw [hj] at ho
    cases ho

/-- The fields of a record that its stand-in is compared by. -/
def SameSignals (t u : Task) : Prop :=
  u.pending = t.pending ∧ u.siginfo = t.siginfo ∧ u.rtQueue = t.rtQueue ∧ u.rlimits = t.rlimits ∧
    u.inFlight = t.inFlight ∧ u.tgid = t.tgid

lemma Kept.touchAll (ho : s.out i = some o)
    {sel : Task → Bool} {f : Task → Task} {log : List Update → List Update}
    (hf : ∀ t, SameSignals t (f t))
    (hsel : ∀ j t u, s.slot j = some t → u.tgid = t.tgid → sel u = true →
      j = i ∨ s.out j = none ∨ ∀ l, log l = l) : (s.touchAll sel f log).KeptBut i o := by
  have hP : (s.touchAll sel f log).KeptBut i o ∧
      (∀ j u, (s.touchAll sel f log).slot j = some u → ∃ t, s.slot j = some t ∧ u.tgid = t.tgid) ∧
      (∀ j, s.out j = none → (s.touchAll sel f log).out j = none) := by
    refine touchAll_ind (P := fun u => u.KeptBut i o ∧
      (∀ j v, u.slot j = some v → ∃ t, s.slot j = some t ∧ v.tgid = t.tgid) ∧
      (∀ j, s.out j = none → u.out j = none)) ⟨h.keptBut ho, fun j v hv => ⟨v, hv, rfl⟩, fun _ => id⟩ ?_
    rintro u j v ⟨hu, htg, hout⟩ hv hvs
    have ⟨t, ht, htgid⟩ := htg j v hv
    have ⟨f1, f2, f3, f4, f5, f6⟩ := hf v
    refine ⟨⟨(touch_smp j).trans hu.smp, touch_free hu.free j, ?_, ?_⟩, ?_, ?_⟩
    · intro k o' ho' hk
      by_cases hkj : k = j
      · subst hkj
        rw [touch_out_self hv] at ho'
        obtain ⟨o0, ho0, rfl⟩ := map_eq_some_iff.mp ho'
        have ⟨w, hw, hst⟩ := hu.others k o0 ho0 hk
        rw [hv] at hw
        cases hw
        refine ⟨f v, touch_slot_self hv, ?_⟩
        rcases hsel k t v ht htgid hvs with hc | hc | hlog
        · exact absurd hc hk
        · rw [hout k hc] at ho0
          cases ho0
        · exact hst.congr (hlog _) rfl rfl rfl f1 f2 f3 f4 f5
      · rw [touch_out_ne hkj] at ho'
        rw [touch_slot_ne hkj]
        exact hu.others k o' ho' hk
    · obtain ⟨w, hw, hst⟩ := hu.own
      by_cases hij : i = j
      · subst hij
        rw [hv] at hw
        cases hw
        exact ⟨f v, touch_slot_self hv, hst.congr rfl rfl rfl rfl f1 f2 f3 f4 f5⟩
      · rw [touch_slot_ne hij]
        exact ⟨w, hw, hst⟩
    · intro k w hw
      by_cases hkj : k = j
      · subst hkj
        rw [touch_slot_self hv] at hw
        cases hw
        exact ⟨t, ht, f6.trans htgid⟩
      · rw [touch_slot_ne hkj] at hw
        exact htg k w hw
    intro k hk
    by_cases hkj : k = j
    · subst hkj
      rw [touch_out_self hv, hout k hk]
      rfl
    · rw [touch_out_ne hkj]
      exact hout k hk
  exact hP.1

/-! ### The steps -/

/-- Process group, nice value, filters and futex wake-up of a task change only while it is not out,
a signal posted to one that is out was not pending at its check-out, and no stand-in is reaped. -/
def Merging (s : Sys) : Op → Prop
  | .setpgid i pid _ => ∀ o, s.out i = some o → pid = 0 ∨ pid = o.cur.pid ∨
      ∀ j, s.find pid = some j → s.out j = none
  | .wake _ j _ | .setNice _ j _ | .reap j => s.out j = none
  | .kill _ j sig _ => ∀ o, s.out j = some o → o.pending sig = false
  | .tsync i _ => ∀ o j t, s.out i = some o → s.slot j = some t → t.tgid = o.cur.tgid →
      j = i ∨ s.out j = none
  | _ => True

lemma Kept.checkOut (hs : s.checkOut i = some s') : s'.Kept := by
  unfold Sys.checkOut at hs
  split at hs
  · next t ht _ =>
    split at hs
    · cases hs
    cases hs
    simp only [h.smp, if_true]
    refine ⟨h.smp, ⟨(h.free.setSlot ht).empty, h.free.once⟩, fun j o ho => ?_⟩
    by_cases hj : j = i
    · subst hj
      have ho : some _ = some o := (setOut_self j _).symm.trans ho
      cases ho
      refine ⟨_, slot_setSlot_self (slot_lt ht) _, ?_⟩
      exact {
        only := fun u hu => by cases hu
        signal := fun sig hsig => by cases hsig
        posted := fun sig q hq => by cases hq
        info := fun sig q hq => by cases hq
        queue := fun sig => ⟨t.rtQueue sig, rfl, (append_nil _).symm⟩
        rlimits := rfl
        inFlight := rfl }
    · have ho : s.out j = some o := (setOut_ne hj _).symm.trans ho
      have ⟨u, hu, hst⟩ := h.standIn j o ho
      exact ⟨u, (slot_setSlot_ne hj _).trans hu, hst⟩
  · cases hs

lemma Kept.checkIn (hs : s.checkIn i = some s') : s'.Kept := by
  obtain ⟨o, ho, rfl⟩ := map_eq_some_iff.mp hs
  obtain ⟨t, ht, -⟩ := h.standIn i o ho
  refine ⟨h.smp, ⟨(h.free.setSlot ht).empty, h.free.once⟩, fun j o' ho' => ?_⟩
  by_cases hj : j = i
  · subst hj
    have ho' : none = some o' := (setOut_self j _).symm.trans ho'
    cases ho'
  have ho' : s.out j = some o' := (setOut_ne hj _).symm.trans ho'
  have ⟨u, hu, hst⟩ := h.standIn j o' ho'
  exact ⟨u, (slot_setSlot_ne hj _).trans hu, hst⟩

lemma Kept.install (t : Task) : (s.install t).Kept := by
  unfold Sys.install
  split
  · next j rest hfree =>
    have hnone : s.slot j = none := h.free.empty j (hfree ▸ mem_cons_self)
    have honce := h.free.once
    rw [hfree, nodup_cons] at honce
    refine ⟨h.smp, ⟨fun k hk => ?_, honce.2⟩, fun k o ho => ?_⟩
    · have hkj : k ≠ j := by
        rintro rfl
        exact honce.1 hk
      have hk' := h.free.empty k (hfree ▸ mem_cons_of_mem _ hk)
      exact (slot_setSlot_ne hkj _).trans hk'
    have ⟨u, hu, hst⟩ := h.standIn k o ho
    have hkj : k ≠ j := by
      rintro rfl
      rw [hnone] at hu
      cases hu
    exact ⟨u, (slot_setSlot_ne hkj _).trans hu, hst⟩
  next hfree =>
  refine ⟨h.smp, ⟨fun k hk => ?_, h.free.once⟩, fun k o ho => ?_⟩
  · have hk : k ∈ s.freeSlots := hk
    rw [hfree] at hk
    cases hk
  have ⟨u, hu, hst⟩ := h.standIn k o ho
  refine ⟨u, ?_, hst⟩
  have hlt := slot_lt hu
  unfold slot at hu ⊢
  rw [getD_eq_getElem?_getD] at hu ⊢
  rw [List.getElem?_append_left hlt]
  exact hu

lemma Kept.advance : s.advance.Kept := by
  unfold Sys.advance
  split
  · exact ⟨h.smp, ⟨h.free.empty, h.free.once⟩, h.standIn⟩
  · exact ⟨h.smp, ⟨h.free.empty, h.free.once⟩, h.standIn⟩

omit h in
lemma Kept.allocPid : ∀ {n : Nat} {s s' : Sys} {p : Nat}, s.Kept → s.allocPid n = some (p, s') →
    s'.Kept := by
  intro n
  induction n with
  | zero =>
    intro s s' p h ha
    cases ha
  | succ n ih =>
    intro s s' p h ha
    simp only [Sys.allocPid] at ha
    split at ha
    · cases ha
      exact h.advance
    · exact ih h.advance ha

lemma Kept.fork {thread parent vm : Bool} (hs : s.fork i thread parent vm = some s') :
    s'.Kept := by
  unfold Sys.fork at hs
  split at hs
  · next o p u _ ha =>
    have hu := h.allocPid ha
    split at hs
    · cases hs
      exact hu.install _
    cases hs
    have hu' : { u with
        limits := fun k => if k = u.nextLimits then u.limits o.cur.rlimits else u.limits k
        nextLimits := u.nextLimits + 1
        nextMm := u.nextMm + 1 }.Kept := ⟨hu.smp, ⟨hu.free.empty, hu.free.once⟩, hu.standIn⟩
    exact hu'.install _
  · cases hs

lemma Kept.setpgid {pid pgid : Nat} (hm : s.Merging (.setpgid i pid pgid))
    (hs : s.setpgid i pid pgid = some s') : s'.Kept := by
  obtain ⟨o, ho, rfl⟩ := map_eq_some_iff.mp hs
  split
  · exact (h.keptBut ho).setCur rfl
  next hpid =>
  split
  · next j hf =>
    rcases hm o ho with hc | hc | hin
    · exact absurd (.inl hc) hpid
    · exact absurd (.inr hc) hpid
    · exact h.touch_in (hin j hf) ..
  · exact h

lemma Kept.reap (hj : s.out j = none) (hs : s.reap j = some s') : s'.Kept := by
  unfold Sys.reap at hs
  split at hs
  · next t ht =>
    split at hs
    · cases hs
      have hself := slot_setSlot_self (slot_lt ht) none
      refine ⟨h.smp, ⟨fun k hk => ?_, ?_⟩, fun k o ho => ?_⟩
      · by_cases hkj : k = j
        · subst hkj
          exact hself
        rcases mem_cons.mp hk with hc | hk
        · exact absurd hc hkj
        · exact (slot_setSlot_ne hkj _).trans (h.free.empty k hk)
      · refine nodup_cons.mpr ⟨fun hc => ?_, h.free.once⟩
        rw [h.free.empty j hc] at ht
        cases ht
      have hkj : k ≠ j := by
        rintro rfl
        have ho : s.out k = some o := ho
        rw [hj] at ho
        cases ho
      have ⟨u, hu, hst⟩ := h.standIn k o ho
      exact ⟨u, (slot_setSlot_ne hkj _).trans hu, hst⟩
    · cases hs
  · cases hs

lemma Kept.step {op : Op} (hm : s.Merging op) (hs : s.step op = some s') : s'.Kept := by
  cases op with
  | checkOut i => exact h.checkOut hs
  | checkIn i => exact h.checkIn hs
  | fork i thread parent vm => exact h.fork hs
  | setpgid i pid pgid => exact h.setpgid hm hs
  | setsid i | exit i =>
    obtain ⟨o, ho, rfl⟩ := map_eq_some_iff.mp hs
    exact (h.keptBut ho).setCur rfl
  | exitGroup i =>
    obtain ⟨o, ho, rfl⟩ := map_eq_some_iff.mp hs
    refine KeptBut.setCur ?_ rfl
    refine h.touchAll ho (fun t => ?_) fun _ _ _ _ _ _ => .inr (.inr fun _ => rfl)
    exact ⟨rfl, rfl, rfl, rfl, rfl, rfl⟩
  | reap j => exact h.reap hm hs
  | kill i j sig info =>
    simp only [Sys.step, Sys.kill] at hs
    split at hs
    · next t _ ht =>
      cases hs
      refine h.touch fun o u ho hu hst => ?_
      rw [ht] at hu
      cases hu
      exact hst.post info (hm o ho)
    · cases hs
  | wake i j key =>
    simp only [Sys.step, Sys.wake] at hs
    split at hs
    · split at hs
      · cases hs
        exact h.touch_in hm ..
      · cases hs
    · cases hs
  | setNice i j n =>
    obtain ⟨o, ho, rfl⟩ := map_eq_some_iff.mp hs
    exact h.touch_in hm ..
  | tsync i filter =>
    obtain ⟨o, ho, rfl⟩ := map_eq_some_iff.mp hs
    refine KeptBut.setCur ?_ rfl
    refine h.touchAll ho (fun t => ⟨rfl, rfl, rfl, rfl, rfl, rfl⟩) ?_
    intro j t u ht hu hsel
    have htg : t.tgid = o.cur.tgid := hu.symm.trans (by simpa using hsel)
    exact (hm o j t ho ht htg).imp id .inl
  | prlimit i j res val =>
    simp only [Sys.step, Sys.prlimit] at hs
    split at hs
    · cases hs
      exact ⟨h.smp, ⟨h.free.empty, h.free.once⟩, h.standIn⟩
    · cases hs
  | own i u =>
    simp only [Sys.step, Sys.own] at hs
    split at hs
    · next o ho =>
      split at hs
      · next hids =>
        cases hs
        simp only [sameIds, Bool.and_eq_true, decide_eq_true_eq] at hids
        exact (h.keptBut ho).setCur hids.2.symm
      · cases hs
    · cases hs

end

lemma kept_init : (init true).Kept where
  smp := rfl
  free := ⟨fun _ hj => absurd hj not_mem_nil, nodup_nil⟩
  standIn _ _ ho := by cases ho

/-- **No update is lost.** In every such interleaving a task has after its check-in all that others
did to the stand-in, and the limits they see. -/
theorem updates_kept {s s' : Sys} {i : Nat} {o : Out} (hr : Run.Reach step Merging (init true) s)
    (ho : s.out i = some o) (hs : s.checkIn i = some s') :
    ∃ standIn t, s.slot i = some standIn ∧ s'.slot i = some t ∧ Present t o.log ∧
      t.rlimits = standIn.rlimits ∧ s'.limits = s.limits := by
  have hk : s.Kept := hr.invariant kept_init fun s op s' h hm hs => h.step hm hs
  obtain ⟨t, ht, hst⟩ := hk.standIn i o ho
  have hs' : s.checkIn i = some
      { (s.setSlot i (some (fold o t))).setOut i none with busy := s.busy - 1 } := by
    simp only [checkIn, ho, Option.map_some, merged, hk.smp, if_true, ht]
  rw [hs'] at hs
  cases hs
  exact ⟨t, fold o t, ht, slot_setSlot_self (slot_lt ht) _, hst.present, hst.rlimits.symm, rfl⟩

/-- The condition, for the calls of the run below. -/
def mergingOk (s : Sys) : Op → Bool
  | .checkOut _ | .checkIn _ | .fork _ _ _ _ => true
  | .kill _ j sig _ => (s.out j).all fun o => !o.pending sig
  | _ => false

lemma merging_of_ok (s : Sys) (op : Op) (h : s.mergingOk op = true) : s.Merging op := by
  cases op with
  | checkOut | checkIn | fork => trivial
  | kill i j sig info =>
    intro o ho
    simpa [mergingOk, ho] using h
  | setpgid | setsid | exit | exitGroup | reap | wake | setNice | tsync | prlimit | own => cases h

theorem updates_kept_signal : ∃ (s s' : Sys) (o : Out) (standIn t : Task),
    Run.Reach step Merging (init true) s ∧ s.out 0 = some o ∧
      o.log = [.signal 10, .info 10 7] ∧ s.checkIn 0 = some s' ∧ s.slot 0 = some standIn ∧
      s'.slot 0 = some t ∧ Present t o.log ∧ t.rlimits = standIn.rlimits := by
  have hr : ∃ s s' o, Run.Reach step Merging (init true) s ∧ s.out 0 = some o ∧
      o.log = [.signal 10, .info 10 7] ∧ s.checkIn 0 = some s' :=
    ⟨_, _, _, .of_exec_guarded merging_of_ok [.checkOut 0, .fork 0 false false false,
      .checkOut 1, .kill 1 0 10 (some 7)] rfl, rfl, rfl, rfl⟩
  obtain ⟨s, s', o, hr, ho, hlog, hs⟩ := hr
  obtain ⟨standIn, t, h1, h2, h3, h4, -⟩ := updates_kept hr ho hs
  exact ⟨s, s', o, standIn, t, hr, ho, hlog, hs, h1, h2, h3, h4⟩

/-- A parent moves its child to a group of its own while the child is being serviced on another
CPU: the group is set in the stand-in and gone after the check-in. -/
theorem updates_lost : ∃ (s s' : Sys) (o : Out) (t : Task),
    Run.Reach step (fun _ _ => True) (init true) s ∧ s.out 1 = some o ∧ o.log = [.pgid 2] ∧
      s.checkIn 1 = some s' ∧ s'.slot 1 = some t ∧ ¬ Present t o.log := by
  refine ⟨_, _, _, _, .of_exec_free [.checkOut 0, .fork 0 false false false, .checkOut 1,
    .setpgid 0 2 0] rfl, rfl, rfl, rfl, rfl, fun h => ?_⟩
  have := h.pgid 2 rfl
  cases this

end Sys

end NixVm.Tasks
