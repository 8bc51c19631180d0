/-
Tasks and the slots of their tables.

A task refers to a slot for as long as it is there, and uses it for as long as it lives. `Settled`
says that what is full is used by a living task and that what is free is referred to by nobody.
-/
import NixVm.Kernel.Fds

namespace NixVm.Fds

open List

/-- What is full is used by a living task, and what is free is referred to by nobody. `full` is left
open: it is what the slots of a table hold. -/
structure Settled (procs : List Task) (idle : List Nat) (slots : Nat) (full : Nat → Prop) :
    Prop where
  files : ∀ p ∈ procs, p.files < slots
  free : ∀ f ∈ idle, f < slots ∧ ∀ p ∈ procs, p.files ≠ f
  nodup : idle.Nodup
  used : ∀ f, full f → ∃ p ∈ procs, p.files = f ∧ p.zombie = false

lemma mem_set_of_mem_eraseIdx {l : List Task} {t : Nat} {q x : Task}
    (h : q ∈ l.eraseIdx t) : q ∈ l.set t x := by
  obtain ⟨i, hi, hne, rfl⟩ := mem_eraseIdx_iff_getElem.mp h
  refine mem_iff_getElem.mpr ⟨i, by simpa using hi, ?_⟩
  rw [getElem_set_ne (Ne.symm hne)]

lemma eq_or_mem_eraseIdx {l : List Task} {t : Nat} {q p : Task}
    (hp : l[t]? = some p) (h : q ∈ l) : q = p ∨ q ∈ l.eraseIdx t := by
  obtain ⟨i, hi, rfl⟩ := mem_iff_getElem.mp h
  by_cases hit : i = t
  · subst hit
    rw [List.getElem?_eq_getElem hi] at hp
    exact .inl (Option.some.inj hp)
  · exact .inr (mem_eraseIdx_iff_getElem.mpr ⟨i, hi, hit, rfl⟩)

namespace Settled

variable {procs procs' : List Task} {idle : List Nat} {slots t : Nat} {full full' : Nat → Prop}
  {p q : Task}

section

variable (h : Settled procs idle slots full)
include h

/-- A slot that no task refers to is empty. -/
lemma vacant {f : Nat} (hf : ∀ p ∈ procs, p.files ≠ f) : ¬full f := by
  intro hfull
  obtain ⟨p, hp, hpf, -⟩ := h.used f hfull
  exact hf p hp hpf

/-- A slot is added to the table. -/
lemma grow : Settled procs idle (slots + 1) full :=
  ⟨fun p hp => Nat.lt_succ_of_lt (h.files p hp),
    fun f hf => ⟨Nat.lt_succ_of_lt (h.free f hf).1, (h.free f hf).2⟩, h.nodup, h.used⟩

/-- A task comes, with a slot that is no longer free. -/
lemma add (hz : q.zombie = false) (hlt : q.files < slots)
    {idle' : List Nat} (hsub : ∀ f ∈ idle', f ∈ idle ∧ f ≠ q.files) (hnodup : idle'.Nodup)
    (hfull : ∀ f, f ≠ q.files → full' f → full f) : Settled (procs ++ [q]) idle' slots full' := by
  have hnew : ∀ r ∈ procs ++ [q], r ∈ procs ∨ r = q := fun r hr =>
    (mem_append.mp hr).imp id mem_singleton.mp
  refine ⟨fun r hr => ?_, fun f hf => ⟨(h.free f (hsub f hf).1).1, fun r hr => ?_⟩, hnodup,
    fun f hf => ?_⟩
  · rcases hnew r hr with hr | rfl
    · exact h.files r hr
    · exact hlt
  · rcases hnew r hr with hr | rfl
    · exact (h.free f (hsub f hf).1).2 r hr
    · exact (hsub f hf).2.symm
  by_cases hfs : f = q.files
  · exact ⟨q, mem_append_right _ (mem_singleton_self q), hfs.symm, hz⟩
  have ⟨r, hr, hrf⟩ := h.used f (hfull f hfs hf)
  exact ⟨r, mem_append_left _ hr, hrf⟩

/-- A task comes that shares the slot of another. -/
lemma share (hp : p ∈ procs) (hz : q.zombie = false)
    (hq : q.files = p.files) : Settled (procs ++ [q]) idle slots full :=
  h.add hz (hq ▸ h.files p hp) (fun f hf => ⟨hf, hq ▸ ((h.free f hf).2 p hp).symm⟩) h.nodup
    fun _ _ hf => hf

section

variable (hp : procs[t]? = some p)
include hp

/-- A task is replaced by one whose slot is not free. The old slot is empty or has a living user. -/
lemma replace (hlt : q.files < slots) (hfree : q.files ∉ idle)
    (hused : ∀ f, full' f → full f ∧ f ≠ p.files ∨
      ∃ r ∈ procs.set t q, r.files = f ∧ r.zombie = false) :
    Settled (procs.set t q) idle slots full' := by
  refine ⟨fun r hr => ?_, fun f hf => ⟨(h.free f hf).1, fun r hr => ?_⟩, h.nodup, fun f hf => ?_⟩
  · rcases mem_or_eq_of_mem_set hr with hr | rfl
    · exact h.files r hr
    · exact hlt
  · rcases mem_or_eq_of_mem_set hr with hr | rfl
    · exact (h.free f hf).2 r hr
    · exact ne_of_mem_of_not_mem hf hfree |>.symm
  rcases hused f hf with ⟨hfull, hne⟩ | hr
  · have ⟨r, hr, hrf, hrz⟩ := h.used f hfull
    rcases eq_or_mem_eraseIdx hp hr with rfl | hr
    · exact absurd hrf.symm hne
    · exact ⟨r, mem_set_of_mem_eraseIdx hr, hrf, hrz⟩
  · exact hr

/-- A task becomes a zombie: it still refers to its slot, which is empty unless a living task uses
it. -/
lemma exit (hused : ∀ f, full' f → full f ∧ (f = p.files →
      ∃ r ∈ procs.set t { p with zombie := true }, r.files = f ∧ r.zombie = false)) :
    Settled (procs.set t { p with zombie := true }) idle slots full' := by
  have hmem := mem_of_getElem? hp
  refine h.replace hp (h.files p hmem) (fun hc => (h.free _ hc).2 p hmem rfl) fun f hf => ?_
  have ⟨hfull, huser⟩ := hused f hf
  by_cases hfp : f = p.files
  · exact .inr (huser hfp)
  · exact .inl ⟨hfull, hfp⟩

/-- All doomed tasks become zombies at once, and the slots that only they used are emptied. -/
lemma group (hz : p.zombie = false) {doomed : Task → Bool}
    (hs : procs' = (procs.map fun q => if doomed q then { q with zombie := true } else q).set t p)
    (hfull : ∀ f, full' f → full f ∧
      f ∉ (((procs.eraseIdx t).filter doomed).map (·.files)).filter (· ≠ p.files)) :
    Settled procs' idle slots full' ∧ procs'[t]? = some p := by
  have hat : procs'[t]? = some p := by
    rw [hs, List.getElem?_set_self (by simpa using (List.getElem?_eq_some_iff.mp hp).1)]
  have hold : ∀ q ∈ procs', ∃ r ∈ procs, r.files = q.files := by
    intro q hq
    rcases mem_or_eq_of_mem_set (hs ▸ hq) with hq | rfl
    · obtain ⟨r, hr, rfl⟩ := mem_map.mp hq
      refine ⟨r, hr, ?_⟩
      split <;> rfl
    · exact ⟨q, mem_of_getElem? hp, rfl⟩
  refine ⟨⟨fun q hq => ?_, fun f hf => ⟨(h.free f hf).1, fun q hq hqf => ?_⟩, h.nodup,
    fun f hf => ?_⟩, hat⟩
  · have ⟨r, hr, hrq⟩ := hold q hq
    exact hrq ▸ h.files r hr
  · have ⟨r, hr, hrq⟩ := hold q hq
    exact (h.free f hf).2 r hr (hrq.trans hqf)
  have ⟨hf, hno⟩ := hfull f hf
  have ⟨q, hq, hqf, hqz⟩ := h.used f hf
  -- the caller still lives, so its own slot needs no other user
  by_cases hfp : f = p.files
  · exact ⟨p, mem_of_getElem? hat, hfp.symm, hz⟩
  rcases eq_or_mem_eraseIdx hp hq with rfl | hq
  · exact absurd hqf.symm hfp
  have hd : ¬doomed q = true := fun hd => hno (mem_filter.mpr
    ⟨mem_map.mpr ⟨q, mem_filter.mpr ⟨hq, hd⟩, hqf⟩, by simpa using hfp⟩)
  have ⟨i, hit, hi⟩ := mem_eraseIdx_iff_getElem?.mp hq
  refine ⟨q, mem_iff_getElem?.mpr ⟨i, ?_⟩, hqf, hqz⟩
  rw [hs, List.getElem?_set_ne (Ne.symm hit), List.getElem?_map, hi]
  exact congrArg some (if_neg hd)

/-- A zombie goes. It used nothing. -/
lemma reap
    (hz : p.zombie = true) : Settled (procs.eraseIdx t) idle slots full := by
  have hsub : ∀ q ∈ procs.eraseIdx t, q ∈ procs := fun q hq => mem_of_mem_eraseIdx hq
  refine ⟨fun q hq => h.files q (hsub q hq), fun f hf => ⟨(h.free f hf).1,
    fun q hq => (h.free f hf).2 q (hsub q hq)⟩, h.nodup, fun f hf => ?_⟩
  have ⟨q, hq, hqf, hqz⟩ := h.used f hf
  rcases eq_or_mem_eraseIdx hp hq with rfl | hq
  · rw [hz] at hqz
    cases hqz
  · exact ⟨q, hq, hqf, hqz⟩

end

/-- A slot that nobody refers to is put on the free list. -/
lemma reclaim {f : Nat} (hlt : f < slots) (hnew : f ∉ idle)
    (hno : ∀ q ∈ procs, q.files ≠ f) : Settled procs (f :: idle) slots full := by
  refine ⟨h.files, fun g hg => ?_, nodup_cons.mpr ⟨hnew, h.nodup⟩, h.used⟩
  rcases mem_cons.mp hg with rfl | hg
  · exact ⟨hlt, hno⟩
  · exact h.free g hg

end

end Settled

end NixVm.Fds
