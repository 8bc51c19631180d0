/-
A wait for a finite time has a deadline, which later runs of the call neither move nor forget, as
long as the kernel's count of milliseconds is not less than what was asked for.
-/
import NixVm.Kernel.Poll

namespace NixVm.Poll

open Option

/-- A time that whole milliseconds do not cut short. -/
def Timespec.Whole (ts : Timespec) : Prop :=
  ts.sec.toNat * 1000 + ts.sub.toNat / 1000000 ≤ i64Max ∧
    (ts.sub.toNat % 1000000 = 0 ∨ (ts.sec.toNat = 0 ∧ ts.sub.toNat < 1000000))

/-- A time in whole milliseconds, and for `select` none at all or for ever. -/
def Wait.Kept : Wait → Prop
  | .poll _ | .epollWait _ | .epollPwait _ => True
  | .ppoll ts | .epollPwait2 ts => ∀ t, ts = some t → t.Whole
  | .select tv | .pselect6 tv => ∀ t, tv = some t → t.sec = 0 ∧ t.sub = 0

def Task.Keeps (_ : Task) : TaskOp → Prop
  | .issue w _ _ => w.Kept
  | _ => True

variable {w : Wait} {d now : Nat} {dl : Option Nat} {s : Scan}

lemma timespecToMs_spec {ts : Timespec} (h : ts.Whole)
    (hpos : 0 < ts.sec.toNat * 1000000000 + ts.sub.toNat) :
    ∃ ms : Nat, timespecToMs ts = ms ∧ 0 < ms ∧
      ts.sec.toNat * 1000000000 + ts.sub.toNat ≤ ms * 1000000 := by
  obtain ⟨hle, hsub⟩ := h
  have hms : (min (ts.sec.toNat * 1000) u64Max + ts.sub.toNat / 1000000) % 2 ^ 64 =
      ts.sec.toNat * 1000 + ts.sub.toNat / 1000000 := by
    unfold i64Max at hle
    unfold u64Max
    omega
  unfold timespecToMs
  simp only [hms, min_eq_left hle]
  clear hms hle
  generalize ts.sec.toNat = sec at *
  generalize ts.sub.toNat = sub at *
  split
  · exact ⟨1, rfl, by omega, by omega⟩
  rename_i hne
  refine ⟨sec * 1000 + sub / 1000000, rfl, pos_of_ne_zero fun hzero => hne ⟨hzero, ?_⟩, by omega⟩
  rcases Nat.eq_zero_or_pos sec with rfl | hsec
  · simpa using hpos
  rw [Nat.add_eq_zero_iff] at hzero
  omega

lemma Wait.Kept.attempt (h : w.Kept) (hd : w.timeout = some d) (hpos : 0 < d) :
    ∃ ms : Nat, 0 < ms ∧ d ≤ ms * 1000000 ∧
      ∀ now dl s, w.attempt now dl s = pollCore now dl ms s := by
  have hms : ∀ ms : Int, (if ms < 0 then none else some (ms.toNat * 1000000)) = some d →
      ∃ n : Nat, ms = n ∧ 0 < n ∧ d ≤ n * 1000000 := by
    intro ms h
    split at h
    · cases h
    cases h
    exact ⟨ms.toNat, by omega, by omega, le_rfl⟩
  have hts : ∀ ts : Option Timespec, (∀ t, ts = some t → t.Whole) →
      ts.map (fun ts => ts.sec.toNat * 1000000000 + ts.sub.toNat) = some d →
      ∃ n : Nat, msOf ts = n ∧ 0 < n ∧ d ≤ n * 1000000 := by
    intro ts hw h
    obtain ⟨t, rfl, rfl⟩ := map_eq_some_iff.mp h
    exact timespecToMs_spec (hw t rfl) hpos
  -- a time for `select` is nought
  have hzero : ∀ (tv : Option Timespec) (k : Nat), (∀ t, tv = some t → t.sec = 0 ∧ t.sub = 0) →
      tv.map (fun t => t.sec.toNat * 1000000000 + t.sub.toNat * k) ≠ some d := by
    intro tv k hw h
    obtain ⟨t, rfl, rfl⟩ := map_eq_some_iff.mp h
    have ⟨h1, h2⟩ := hw t rfl
    simp [h1, h2] at hpos
  cases w with
  | poll ms | epollWait ms | epollPwait ms =>
    obtain ⟨n, rfl, hn, hle⟩ := hms ms hd
    exact ⟨n, hn, hle, fun _ _ _ => rfl⟩
  | ppoll ts | epollPwait2 ts =>
    have ⟨n, heq, hn, hle⟩ := hts ts h hd
    refine ⟨n, hn, hle, fun _ _ _ => ?_⟩
    rw [← heq]
    rfl
  | select tv => exact absurd hd (hzero tv 1000 h)
  | pselect6 ts =>
    refine absurd ?_ (hzero ts 1 h)
    simpa [Wait.timeout] using hd

/-- A parked call's deadline is as long after it was made as it asked for. -/
def Task.Armed (t : Task) (c : Issued) : Prop :=
  c.made ≤ t.now ∧ c.wait.Kept ∧ ∀ d, c.wait.timeout = some d → 0 < d →
    ∃ dl, t.wakeDeadline = some dl ∧ c.made + d ≤ dl

/-- The deadline of a parked call, and what the calls that returned were given. -/
structure Task.Timed (t : Task) : Prop where
  idle : t.parked = none → t.wakeDeadline = none
  armed : ∀ c, t.parked = some c → t.Armed c
  kept : ∀ r ∈ t.returns, r.result = .count 0 → ∀ d, r.call.wait.timeout = some d → 0 < d →
    r.call.made + d ≤ r.now

lemma Task.run_timed {t : Task} {c : Issued} {signalled : Bool}
    (hret : ∀ r ∈ t.returns, r.result = .count 0 → ∀ d, r.call.wait.timeout = some d → 0 < d →
      r.call.made + d ≤ r.now)
    (hc : (t.wakeDeadline = none ∧ c.made = t.now ∧ c.wait.Kept) ∨ t.Armed c) :
    (t.run c s signalled).Timed := by
  have hkept : c.wait.Kept ∧ c.made ≤ t.now := by
    rcases hc with ⟨-, hat, hk⟩ | ⟨hat, hk, -⟩
    · exact ⟨hk, hat ▸ le_rfl⟩
    · exact ⟨hk, hat⟩
  unfold Task.run
  split
  next res hdone =>
    refine ⟨fun _ => rfl, nofun, fun r hr h0 d hd hpos => ?_⟩
    rcases List.mem_cons.mp hr with rfl | hr
    · -- nothing was ready, so the deadline has passed
      have ⟨ms, hms, hle, heq⟩ := hkept.1.attempt hd hpos
      dsimp only at h0 ⊢
      subst h0
      rw [heq] at hdone
      unfold pollCore at hdone
      split at hdone
      · cases hdone
      · cases hdone
      unfold blockOrTimeout at hdone
      rw [if_neg (by omega), if_neg (by omega)] at hdone
      split at hdone
      next dl hdl =>
        split at hdone
        · rcases hc with ⟨hnone, -⟩ | ⟨-, -, harm⟩
          · rw [hnone] at hdl
            cases hdl
          have ⟨dl', hdl', hlate⟩ := harm d hd hpos
          rw [hdl] at hdl'
          cases hdl'
          omega
        · cases hdone
      · cases hdone
    · exact hret r hr h0 d hd hpos
  next dl hpark =>
    split
    · refine ⟨fun _ => rfl, nofun, fun r hr h0 => ?_⟩
      rcases List.mem_cons.mp hr with rfl | hr
      · cases h0
      · exact hret r hr h0
    refine ⟨nofun, fun c' hc' => ?_, hret⟩
    cases hc'
    refine ⟨hkept.2, hkept.1, fun d hd hpos => ?_⟩
    have ⟨ms, hms, hle, heq⟩ := hkept.1.attempt hd hpos
    rw [heq] at hpark
    unfold pollCore at hpark
    split at hpark
    · cases hpark
    · cases hpark
    unfold blockOrTimeout at hpark
    rw [if_neg (by omega), if_neg (by omega)] at hpark
    split at hpark
    next dl' hdl =>
      split at hpark
      · cases hpark
      cases hpark
      rcases hc with ⟨hnone, -⟩ | ⟨-, -, harm⟩
      · rw [hnone] at hdl
        cases hdl
      have ⟨dl2, hdl2, hlate⟩ := harm d hd hpos
      rw [hdl] at hdl2
      cases hdl2
      exact ⟨dl', rfl, hlate⟩
    next hdl =>
      cases hpark
      rcases hc with ⟨-, hat, -⟩ | ⟨-, -, harm⟩
      · exact ⟨_, rfl, by rw [Int.toNat_natCast]; omega⟩
      obtain ⟨dl2, hdl2, -⟩ := harm d hd hpos
      rw [hdl] at hdl2
      cases hdl2

lemma Task.step_timed {t t' : Task} {op : TaskOp} (h : t.Timed) (hk : t.Keeps op)
    (hs : t.step op = some t') : t'.Timed := by
  cases op with
  | tick ns =>
    cases hs
    refine ⟨h.idle, fun c hc => ?_, h.kept⟩
    have ⟨hat, hkept, harm⟩ := h.armed c hc
    exact ⟨Nat.le_add_right_of_le hat, hkept, harm⟩
  | issue w scan signalled =>
    simp only [Task.step] at hs
    split at hs
    · cases hs
    rename_i hidle
    cases hs
    exact Task.run_timed h.kept (.inl ⟨h.idle hidle, rfl, hk⟩)
  | rerun scan signalled =>
    obtain ⟨c, hc, rfl⟩ := map_eq_some_iff.mp hs
    exact Task.run_timed h.kept (.inr (h.armed c hc))

lemma Task.step_deadline {t t' : Task} {op : TaskOp} {c : Issued} (h : t.Timed)
    (hs : t.step op = some t') (hc : t.parked = some c) (hc' : t'.parked = some c)
    (hd : c.wait.timeout = some d) (hpos : 0 < d) : t'.wakeDeadline = t.wakeDeadline := by
  cases op with
  | tick ns =>
    cases hs
    rfl
  | issue w scan signalled =>
    simp only [Task.step, hc] at hs
    cases hs
  | rerun scan signalled =>
    simp only [Task.step, hc, map_some] at hs
    cases hs
    obtain ⟨-, hkept, harm⟩ := h.armed c hc
    obtain ⟨dl, hdl, -⟩ := harm d hd hpos
    obtain ⟨ms, hms, -, heq⟩ := hkept.attempt hd hpos
    unfold Task.run at hc' ⊢
    rw [heq, hdl] at hc' ⊢
    cases scan with
    | fault e => cases hc'
    | ready n => cases hc'
    | nothing =>
      unfold pollCore blockOrTimeout at hc' ⊢
      rw [if_neg (by omega), if_neg (by omega)] at hc' ⊢
      by_cases hlate : dl ≤ t.now
      · simp only [if_pos hlate] at hc'
        cases hc'
      simp only [if_neg hlate] at hc' ⊢
      cases signalled with
      | true => cases hc'
      | false => rfl

lemma Task.Reach.timed {t : Task} (h : Run.Reach Task.step Task.Keeps Task.init t) : t.Timed :=
  Run.Reach.invariant (P := Task.Timed) h ⟨fun _ => rfl, nofun, nofun⟩
    fun _ _ _ hi hk hs => Task.step_timed hi hk hs

/-- **Waits keep their time.** In any run of waits whose times the kernel keeps, a call parked for a
finite time has a deadline, no earlier than asked for, which further runs keep, and a call that
returned 0 did so no earlier. -/
theorem waits_keep_time (t : Task) (h : Run.Reach Task.step Task.Keeps Task.init t) :
    (∀ c d, t.parked = some c → c.wait.timeout = some d → 0 < d →
      (∃ dl, t.wakeDeadline = some dl ∧ c.made + d ≤ dl) ∧
      ∀ op t', t.step op = some t' → t'.parked = some c → t'.wakeDeadline = t.wakeDeadline) ∧
    ∀ r ∈ t.returns, r.result = .count 0 → ∀ d, r.call.wait.timeout = some d → 0 < d →
      r.call.made + d ≤ r.now := by
  have ht := Task.Reach.timed h
  refine ⟨fun c d hc hd hpos => ⟨(ht.armed c hc).2.2 d hd hpos, fun op t' hs hc' => ?_⟩, ht.kept⟩
  exact Task.step_deadline ht hs hc hc' hd hpos

theorem waits_keep_time_poll : ∃ t : Task, Run.Reach Task.step Task.Keeps Task.init t ∧
    t.returns = [⟨⟨.poll 5, 0⟩, 5000000, .count 0⟩] ∧ 0 + 5000000 ≤ 5000000 := by
  have hrun : ∃ t, Run.exec Task.step [.issue (.poll 5) .nothing false, .tick 3000000,
      .rerun .nothing false, .tick 2000000, .rerun .nothing false] Task.init = some t ∧
      t.returns = [⟨⟨.poll 5, 0⟩, 5000000, .count 0⟩] := ⟨_, rfl, by decide⟩
  obtain ⟨t, ht, hret⟩ := hrun
  have hreach : Run.Reach Task.step Task.Keeps Task.init t := by
    refine .of_exec _ ht ⟨trivial, fun _ _ => ⟨trivial, fun _ _ => ⟨trivial, fun _ _ =>
      ⟨trivial, fun _ _ => ⟨trivial, fun _ _ => trivial⟩⟩⟩⟩⟩
  refine ⟨t, hreach, hret, ?_⟩
  exact (waits_keep_time t hreach).2 _ (hret ▸ List.mem_singleton_self _) rfl 5000000 rfl (by decide)

/-- A `pselect6` for a second parks without a deadline, and a `ppoll` for 1.9 ms ends after one. -/
theorem waits_lose_time : (∃ t : Task, Run.Reach Task.step (fun _ _ => True) Task.init t ∧
      t.parked = some ⟨.pselect6 (some ⟨1, 0⟩), 0⟩ ∧ t.wakeDeadline = none) ∧
    ∃ t : Task, Run.Reach Task.step (fun _ _ => True) Task.init t ∧
      t.returns = [⟨⟨.ppoll (some ⟨0, 1900000⟩), 0⟩, 1000000, .count 0⟩] :=
  ⟨⟨_, .of_exec_free [.issue (.pselect6 (some ⟨1, 0⟩)) .nothing false] rfl, rfl, rfl⟩,
    ⟨_, .of_exec_free [.issue (.ppoll (some ⟨0, 1900000⟩)) .nothing false, .tick 1000000,
      .rerun .nothing false] rfl, by decide⟩⟩

end NixVm.Poll
