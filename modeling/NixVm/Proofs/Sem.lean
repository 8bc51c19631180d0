/-
Semaphores: a batch is applied as a whole or not at all, and what a group's exit undoes.

`Applies` is what a batch is for: its operations one after the other, every value in range all the
way. `Sums` follows a history with the exact sum of what each group has to undo; an adjustment is
minus that sum, up to a multiple of `2 ^ 32`.
-/
import NixVm.Kernel.Sem
import NixVm.Lib.Run

namespace NixVm.Sem

open List

def Valid (vals : List Int) : Prop := ∀ v ∈ vals, 0 ≤ v ∧ v ≤ semvmx

def Ipc.InRange (s : Ipc) : Prop := ∀ id vals, s.sem id = some vals → Valid vals

def SemBuf.add (vals : List Int) (o : SemBuf) : List Int :=
  vals.modify o.num.toNat (· + o.op.toInt)

/-- An operation of 0 waits until the value is 0. -/
inductive Applies : List Int → List SemBuf → List Int → Prop
  | nil {vals} : Applies vals [] vals
  | cons {vals vals' o ops} : Valid (o.add vals) →
    (o.op.toInt = 0 → vals[o.num.toNat]? = some 0) →
    Applies (o.add vals) ops vals' → Applies vals (o :: ops) vals'

variable {s : Ipc} {vals vals' : List Int} {o : SemBuf} {adj : Adjust}

lemma Valid.set (h : Valid vals) {v : Int} (hv : 0 ≤ v ∧ v ≤ semvmx) (n : Nat) :
    Valid (vals.set n v) := by
  intro x hx
  rcases mem_or_eq_of_mem_set hx with hx | rfl
  · exact h x hx
  · exact hv

lemma apply_ok (h : Valid vals) (hn : o.num.toNat < vals.length) (ha : o.apply vals = .ok vals') :
    vals' = o.add vals ∧ Valid vals' ∧ (o.op.toInt = 0 → vals[o.num.toNat]? = some 0) := by
  have hget := getElem?_eq_getElem hn
  have hadd : o.add vals = vals.set o.num.toNat (vals[o.num.toNat] + o.op.toInt) := by
    rw [SemBuf.add, modify_eq_set_getElem?, hget]
    rfl
  have hv := h _ (getElem_mem hn)
  unfold SemBuf.apply at ha
  simp only [getD_eq_getElem?_getD, hget, Option.getD_some] at ha
  split at ha
  · split at ha
    · cases ha
    cases ha
    exact ⟨hadd.symm, h.set (by omega) _, fun h0 => by omega⟩
  split at ha
  · split at ha
    · cases ha
      exact ⟨hadd.symm, h.set (by omega) _, fun h0 => by omega⟩
    · cases ha
  split at ha
  · cases ha
  rename_i hzero
  cases ha
  have hop : o.op.toInt = 0 := by omega
  refine ⟨?_, h, fun _ => by rw [hget, not_not.mp hzero]⟩
  rw [hadd, hop, add_zero, set_getElem_self]

lemma batch_ok (ops : List SemBuf) : ∀ {vals : List Int}, Valid vals →
    (∀ o ∈ ops, o.num.toNat < vals.length) → ops.foldlM SemBuf.apply vals = .ok vals' →
    Applies vals ops vals' ∧ Valid vals' := by
  induction ops with
  | nil =>
    intro vals h _ hb
    cases hb
    exact ⟨.nil, h⟩
  | cons o ops ih =>
    intro vals h hn hb
    rw [foldlM_cons] at hb
    cases ha : o.apply vals with
    | error e =>
      rw [ha] at hb
      cases hb
    | ok v =>
      rw [ha] at hb
      obtain ⟨rfl, hv, hzero⟩ := apply_ok h (hn o mem_cons_self) ha
      have hn' : ∀ o' ∈ ops, o'.num.toNat < (o.add vals).length := fun o' ho' =>
        (hn o' (mem_cons_of_mem _ ho')).trans_eq (length_modify ..).symm
      have ⟨hrest, hv'⟩ := ih hv hn' hb
      exact ⟨.cons hv hzero hrest, hv'⟩

/-- All of a batch is applied, every value in range all the way, or nothing changes. -/
def Ipc.Atomic (s : Ipc) (tgid id : Nat) (ops : List SemBuf) (r : Reply × Ipc) : Prop :=
  (∃ vals vals', s.sem id = some vals ∧ Applies vals ops vals' ∧ Valid vals' ∧
    r = (.done, s.setVals id vals' (ops.foldl (Adjust.note tgid id) s.semadj))) ∨
  r.1 ≠ .done ∧ r.2 = s

lemma semtimedop_cases (h : s.InRange) (tgid id : Nat) (ops : List SemBuf) (allowed late : Bool) :
    s.Atomic tgid id ops (s.semtimedop tgid id ops allowed late) := by
  unfold Ipc.semtimedop
  split
  · exact .inr ⟨nofun, rfl⟩
  split
  · exact .inr ⟨nofun, rfl⟩
  split
  · exact .inr ⟨nofun, rfl⟩
  rename_i vals hvals
  split
  · exact .inr ⟨nofun, rfl⟩
  split
  · exact .inr ⟨nofun, rfl⟩
  rename_i hnum
  split
  · exact .inr ⟨nofun, rfl⟩
  · refine .inr ⟨?_, rfl⟩
    dsimp only
    split <;> exact nofun
  next vals' hb =>
    have hn : ∀ o ∈ ops, o.num.toNat < vals.length := fun o ho => by
      by_contra hlt
      exact hnum (any_eq_true.mpr ⟨o, ho, by simpa using hlt⟩)
    have ⟨ha, hv⟩ := batch_ok ops (h id vals hvals) hn hb
    exact .inl ⟨vals, vals', hvals, ha, hv, rfl⟩

/-- The exact sums of what each group did with `SEM_UNDO`. -/
abbrev Sums := Nat → Nat → Nat → Int

def Sums.note (tgid id : Nat) (t : Sums) (o : SemBuf) : Sums := fun g i n =>
  if o.undo ∧ g = tgid ∧ i = id ∧ n = o.num.toNat then t g i n + o.op.toInt else t g i n

def Sums.clear (t : Sums) (id : Nat) (p : Nat → Bool) : Sums := fun g i n =>
  if i = id ∧ p n then 0 else t g i n

/-- The sums after a call; setting a value starts its sums again. -/
def Sums.track (t : Sums) : Reply → Op → Sums
  | .done, .semop tgid id ops _ _ => ops.foldl (note tgid id) t
  | .done, .setval id num _ _ => t.clear id (· = num)
  | .done, .setall id _ _ => t.clear id fun _ => true
  | .done, .exit tgid => fun g i n => if g = tgid then 0 else t g i n
  | _, _ => t

/-- An adjustment is minus the sum, in `i32`. -/
def Tracks (adj : Adjust) (t : Sums) : Prop := ∀ g i n, (adj g i n).getD 0 = wrap (-t g i n)

variable {t : Sums}

lemma Tracks.clear (h : Tracks adj t) (id : Nat) (p : Nat → Bool) :
    Tracks (adj.clear id p) (t.clear id p) := by
  intro g i n
  unfold Adjust.clear Sums.clear
  split
  · rfl
  · exact h g i n

lemma Tracks.note (h : Tracks adj t) (tgid id : Nat) (o : SemBuf) :
    Tracks (adj.note tgid id o) (t.note tgid id o) := by
  intro g i n
  have hgi := h g i n
  rw [Sums.note]
  unfold Adjust.note
  by_cases hkey : g = tgid ∧ i = id ∧ n = o.num.toNat
  · by_cases hu : o.undo = true ∧ o.op ≠ 0#16
    · rw [if_pos hu, if_pos hkey, if_pos ⟨hu.1, hkey⟩, Option.getD_some, hgi, wrap, wrap,
        Int.bmod_sub_bmod, neg_add]
      rfl
    rw [if_neg hu]
    split
    · next hk =>
      have h0 : o.op.toInt = 0 := by rw [not_not.mp fun h => hu ⟨hk.1, h⟩]; rfl
      rwa [h0, add_zero]
    · exact hgi
  rw [if_neg (c := _ ∧ g = tgid ∧ _) fun h => hkey h.2]
  split
  · simpa only [if_neg hkey] using hgi
  · exact hgi

lemma Tracks.foldl (tgid id : Nat) (ops : List SemBuf) : ∀ {adj : Adjust} {t : Sums}, Tracks adj t →
    Tracks (ops.foldl (Adjust.note tgid id) adj) (ops.foldl (Sums.note tgid id) t) := by
  induction ops with
  | nil => exact fun h => h
  | cons o ops ih => exact fun h => ih (h.note tgid id o)

structure Inv (s : Ipc) (t : Sums) : Prop where
  inRange : s.InRange
  tracks : Tracks s.semadj t

lemma Inv.setVals (h : Inv s t) (hv : Valid vals) (id : Nat) {t' : Sums} (ht : Tracks adj t') :
    Inv (s.setVals id vals adj) t' := by
  refine ⟨fun i v hi => ?_, ht⟩
  simp only [Ipc.setVals] at hi
  split at hi
  · cases hi
    exact hv
  · exact h.inRange i v hi

lemma Inv.step (h : Inv s t) (op : Op) : Inv (s.step op).2 (t.track (s.step op).1 op) := by
  cases op with
  | semop tgid id ops allowed late =>
    rw [Ipc.step]
    rcases semtimedop_cases h.inRange tgid id ops allowed late with ⟨_, _, -, -, hv, heq⟩ | ⟨hno, heq⟩
    · rw [heq]
      exact h.setVals hv id (h.tracks.foldl tgid id ops)
    · rw [heq]
      generalize Prod.fst _ = r at hno
      cases r with
      | done => exact absurd rfl hno
      | _ => exact h
  | setval id num v allowed =>
    rw [Ipc.step, Ipc.setval]
    repeat' split
    any_goals exact h
    rename_i vals hvals _ _ _
    exact h.setVals ((h.inRange id vals hvals).set (by omega) num) id (h.tracks.clear id _)
  | setall id raw allowed =>
    rw [Ipc.step, Ipc.setall]
    dsimp only
    repeat' split
    any_goals exact h
    rename_i hmax
    refine h.setVals (fun v hv => ?_) id (h.tracks.clear id _)
    obtain ⟨i, -, rfl⟩ := mem_map.mp hv
    refine ⟨Int.natCast_nonneg _, ?_⟩
    by_contra hgt
    exact hmax (any_eq_true.mpr ⟨_, hv, by simpa using hgt⟩)
  | exit tgid =>
    refine ⟨fun i v hi => ?_, fun g i n => ?_⟩
    · obtain ⟨vals, hvals, rfl⟩ := Option.map_eq_some_iff.mp hi
      intro x hx
      obtain ⟨n, hn, rfl⟩ := mem_mapIdx.mp hx
      cases s.semadj tgid i n with
      | none => exact h.inRange i vals hvals _ (getElem_mem hn)
      | some a =>
        simp only [Option.elim, clamp, semvmx]
        omega
    · simp only [Ipc.step, Ipc.exitGroup, Sums.track]
      split
      · rfl
      · exact h.tracks g i n

def follow (p : Ipc × Sums) (op : Op) : Option (Ipc × Sums) :=
  let r := p.1.step op
  some (r.2, p.2.track r.1 op)

/-- From any values in range, with nothing to undo. -/
def History (s₀ : Ipc) (p : Ipc × Sums) : Prop := s₀.InRange ∧ (∀ g i n, s₀.semadj g i n = none) ∧
  Run.Reach follow (fun _ _ => True) (s₀, fun _ _ _ => 0) p

lemma History.inv {s0 : Ipc} {p : Ipc × Sums} (h : History s0 p) : Inv p.1 p.2 := by
  have ⟨hr, hnone, hrun⟩ := h
  refine Run.Reach.invariant (P := fun p => Inv p.1 p.2) hrun ⟨hr, fun g i n => ?_⟩ ?_
  · rw [hnone]
    rfl
  · intro p op p' hp _ heq
    cases heq
    exact hp.step op

/-- **A batch is applied as a whole or not at all**, and values stay in range in every history. -/
theorem semop_atomic : (∀ s : Ipc, s.InRange → ∀ tgid id ops allowed late,
      s.Atomic tgid id ops (s.semtimedop tgid id ops allowed late)) ∧
    ∀ s₀ p, History s₀ p → p.1.InRange :=
  ⟨fun _ h => semtimedop_cases h, fun _ _ h => h.inv.inRange⟩

def oneSem : Ipc :=
  ⟨fun id => if id = 0 then some [0] else none, fun _ _ _ => none, fun _ => .einval⟩

lemma oneSem_inRange : oneSem.InRange := by
  intro id vals h
  obtain ⟨-, ⟨⟩⟩ := Option.ite_none_right_eq_some.mp h
  unfold Valid
  decide

/-- Two operations on one semaphore: the second waits for more than the first has added, and what
the first did is not kept. -/
theorem semop_atomic_repeated :
    let ops : List SemBuf := [⟨0#16, 3#16, 0#16⟩, ⟨0#16, -5#16, 0#16⟩]
    oneSem.semtimedop 1 0 ops true false = (.blocks, oneSem) ∧
      oneSem.Atomic 1 0 ops (.blocks, oneSem) := by
  intro ops
  have hrun : oneSem.semtimedop 1 0 ops true false = (.blocks, oneSem) := rfl
  exact ⟨hrun, hrun ▸ semop_atomic.1 oneSem oneSem_inRange 1 0 ops true false⟩

lemma clamp_of_valid {v : Int} (h : 0 ≤ v ∧ v ≤ semvmx) : clamp v = v := by
  unfold clamp
  omega

/-- **The exit of a group takes its sum off every value** and brings it into range. -/
theorem exit_undoes {s₀ : Ipc} (h : History s₀ (s, t)) {tgid id num : Nat} {v : Int}
    (hs : s.sem id = some vals) (hv : vals[num]? = some v)
    (hfits : -2 ^ 31 ≤ v - t tgid id num ∧ v - t tgid id num < 2 ^ 31) :
    ∃ vals', (s.exitGroup tgid).sem id = some vals' ∧ vals'.length = vals.length ∧
      vals'[num]? = some (clamp (v - t tgid id num)) ∧ (t tgid id num = 0 → vals'[num]? = some v) := by
  have ⟨hr, (htr : Tracks s.semadj t)⟩ := h.inv
  have hmem := hr id vals hs v (mem_of_getElem? hv)
  have hval : ((s.semadj tgid id num).elim v fun adj => clamp (wrap (v + adj))) =
      clamp (v - t tgid id num) := by
    have hwrap : wrap (v + (s.semadj tgid id num).getD 0) = v - t tgid id num := by
      rw [htr, wrap, wrap, Int.add_bmod_bmod, ← sub_eq_add_neg, Int.bmod_eq_of_le] <;> omega
    rw [← hwrap]
    cases s.semadj tgid id num with
    | none =>
      have hid : wrap v = v := by
        simp only [semvmx] at hmem
        rw [wrap, Int.bmod_eq_of_le] <;> omega
      rw [Option.getD_none, add_zero, hid, clamp_of_valid hmem]
      rfl
    | some a => rfl
  refine ⟨_, Option.map_eq_some_iff.mpr ⟨vals, hs, rfl⟩, length_mapIdx .., ?_, fun h0 => ?_⟩
  all_goals rw [getElem?_mapIdx, hv, Option.map_some, hval]
  rw [h0, sub_zero, clamp_of_valid hmem]

lemma rounds (n : Nat) : ∃ s t, History oneSem (s, t) ∧ s.sem 0 = some [0] ∧ t 1 0 0 = n * 32767 := by
  induction n with
  | zero => exact ⟨oneSem, _, ⟨oneSem_inRange, fun _ _ _ => rfl, .refl⟩, rfl, rfl⟩
  | succ n ih =>
    obtain ⟨s, t, h, hs, ht⟩ := ih
    let ops : List SemBuf := [⟨0#16, 32767#16, 0o10000#16⟩, ⟨0#16, -32767#16, 0#16⟩]
    have hcall : s.semtimedop 1 0 ops true false =
        (.done, s.setVals 0 [0] (ops.foldl (Adjust.note 1 0) s.semadj)) := by
      unfold Ipc.semtimedop
      rw [hs]
      rfl
    refine ⟨_, _, ⟨h.1, h.2.1, h.2.2.tail ⟨.semop 1 0 ops true false, trivial, rfl⟩⟩, ?_, ?_⟩
    · simp only [Ipc.step, hcall]
      rfl
    simp only [Ipc.step, hcall]
    show t 1 0 0 + 32767 = _
    rw [ht]
    push_cast
    ring

theorem exit_undoes_one : ∃ s t, History oneSem (s, t) ∧ t 1 0 0 = 32767 ∧ ∃ vals,
    (s.exitGroup 1).sem 0 = some vals ∧ vals[0]? = some (clamp (0 - 32767)) := by
  obtain ⟨s, t, h, hs, ht⟩ := rounds 1
  obtain ⟨vals, hv, -, hval, -⟩ := exit_undoes h hs rfl
    (show -2 ^ 31 ≤ 0 - t 1 0 0 ∧ _ by rw [ht]; decide)
  exact ⟨s, t, h, ht, vals, hv, by rw [hval, ht]; rfl⟩

/-- The adjustment has wrapped, and the exit adds where it should subtract. -/
theorem exit_wraps : ∃ s t, History oneSem (s, t) ∧ s.sem 0 = some [0] ∧ t 1 0 0 = 65539 * 32767 ∧
    clamp (0 - 65539 * 32767) = 0 ∧ (s.exitGroup 1).sem 0 = some [32767] := by
  obtain ⟨s, t, h, hs, ht⟩ := rounds 65539
  refine ⟨s, t, h, hs, ht, by decide, ?_⟩
  have hsum := h.inv.tracks 1 0 0
  simp only [ht] at hsum
  cases ha : s.semadj 1 0 0 with
  | none =>
    rw [ha] at hsum
    exact absurd hsum (by decide)
  | some a =>
    rw [ha, Option.getD_some] at hsum
    simp only [Ipc.exitGroup, hs, Option.map_some, mapIdx_cons, mapIdx_nil, ha, hsum]
    decide

end NixVm.Sem
