/-
The lock set as a set of pages.

`insert` and `remove` look only at the ranges that can touch theirs: the last one that starts
before, and those that start within. What they do to the others' order, gaps and count is said of
the ranges as a set (`Becomes`), and of the pages from there (`Keeps`).
-/
import NixVm.Vcpu.PageLocks

namespace NixVm.RangeMap

open List

/-- Ranges in order, none empty and no two overlapping. -/
structure Apart (m : List (Nat × Nat)) : Prop where
  order : m.Pairwise fun r s => r.2 ≤ s.1
  proper : ∀ r ∈ m, r.1 < r.2

variable {m : List (Nat × Nat)}

lemma Apart.filter (h : Apart m) (q : Nat × Nat → Bool) : Apart (m.filter q) :=
  ⟨h.order.filter q, fun r hr => h.proper r (mem_filter.mp hr).1⟩

lemma Apart.compare (h : Apart m) {r s : Nat × Nat} (hr : r ∈ m) (hs : s ∈ m) :
    r = s ∨ r.2 ≤ s.1 ∨ s.2 ≤ r.1 := by
  have horder := h.order
  clear h
  induction m with
  | nil => cases hr
  | cons a m ih =>
    have ⟨hfirst, horder⟩ := pairwise_cons.mp horder
    rcases mem_cons.mp hr with rfl | hr'
    · rcases mem_cons.mp hs with rfl | hs'
      · exact .inl rfl
      · exact .inr (.inl (hfirst s hs'))
    rcases mem_cons.mp hs with rfl | hs'
    · exact .inr (.inr (hfirst r hr'))
    · exact ih hr' hs' horder

lemma Apart.eq_of_start (h : Apart m) {r s : Nat × Nat} (hr : r ∈ m) (hs : s ∈ m)
    (heq : r.1 = s.1) : r = s := by
  have hr' := h.proper r hr
  have hs' := h.proper s hs
  rcases h.compare hr hs with h | h | h
  · exact h
  · omega
  · omega

lemma Apart.nodup (h : Apart m) : m.Nodup := by
  refine (List.Pairwise.and_mem.mp h.order).imp fun {r s} hrs heq => ?_
  have := h.proper r hrs.1
  rw [heq] at this hrs
  omega

lemma Apart.mem_remove (h : Apart m) {r x : Nat × Nat} (hr : r ∈ m) :
    x ∈ remove m r.1 ↔ x ∈ m ∧ x ≠ r := by
  simp only [remove, mem_filter, bne_iff_ne]
  refine and_congr_right fun hx => not_congr ⟨fun heq => h.eq_of_start hx hr heq, ?_⟩
  rintro rfl
  rfl

lemma Apart.perm_remove (h : Apart m) {r : Nat × Nat} (hr : r ∈ m) : m ~ r :: remove m r.1 := by
  have hnot : r ∉ remove m r.1 := fun hmem => ((h.mem_remove hr).mp hmem).2 rfl
  refine (perm_ext_iff_of_nodup h.nodup (nodup_cons.mpr ⟨hnot, (h.filter _).nodup⟩)).mpr fun x => ?_
  rw [mem_cons, h.mem_remove hr]
  by_cases hx : x = r
  · simp [hx, hr]
  · simp [hx]

lemma Apart.card_biUnion (h : Apart m) {F : Nat × Nat → Finset Nat}
    (hF : ∀ r ∈ m, F r ⊆ Finset.Ico r.1 r.2) :
    (m.toFinset.biUnion F).card = ∑ r ∈ m.toFinset, (F r).card := by
  refine Finset.card_biUnion fun r hr s hs hne => Finset.disjoint_left.mpr fun p hpr hps => ?_
  have hpr := Finset.mem_Ico.mp (hF r (mem_toFinset.mp hr) hpr)
  have hps := Finset.mem_Ico.mp (hF s (mem_toFinset.mp hs) hps)
  rcases (h.compare (mem_toFinset.mp hr) (mem_toFinset.mp hs)).resolve_left hne with hle | hle
  · omega
  · omega

section Insert

variable {a b : Nat}

lemma Apart.mem_insert (h : Apart m) (hab : a < b) (hd : ∀ r ∈ m, r.2 ≤ a ∨ b ≤ r.1)
    {x : Nat × Nat} : x ∈ insert m a b ↔ x ∈ m ∨ x = (a, b) := by
  simp only [insert, mem_append, mem_cons, mem_filter, decide_eq_true_eq]
  constructor
  · rintro (⟨hx, -⟩ | rfl | ⟨hx, -⟩)
    · exact .inl hx
    · exact .inr rfl
    · exact .inl hx
  rintro (hx | rfl)
  · have := h.proper x hx
    rcases hd x hx with hle | hle
    · exact .inl ⟨hx, by omega⟩
    · exact .inr (.inr ⟨hx, by omega⟩)
  · exact .inr (.inl rfl)

lemma Apart.insert (h : Apart m) (hab : a < b) (hd : ∀ r ∈ m, r.2 ≤ a ∨ b ≤ r.1) :
    Apart (insert m a b) := by
  refine ⟨?_, fun x hx => ?_⟩
  · unfold RangeMap.insert
    rw [pairwise_append, pairwise_cons]
    refine ⟨h.order.filter _, ⟨fun s hs => ?_, h.order.filter _⟩, fun r hr s hs => ?_⟩
    · have ⟨hs, hlt⟩ := mem_filter.mp hs
      simp only [decide_eq_true_eq] at hlt
      have := h.proper s hs
      rcases hd s hs with hle | hle
      · omega
      · exact hle
    have ⟨hr, hlt⟩ := mem_filter.mp hr
    simp only [decide_eq_true_eq] at hlt
    rcases mem_cons.mp hs with rfl | hs
    · rcases hd r hr with hle | hle
      · exact hle
      · omega
    have ⟨hs, hlt'⟩ := mem_filter.mp hs
    simp only [decide_eq_true_eq] at hlt'
    have := h.proper s hs
    rcases h.compare hr hs with rfl | hle | hle
    · omega
    · exact hle
    · omega
  · rcases (h.mem_insert hab hd).mp hx with hx | rfl
    · exact h.proper x hx
    · exact hab

lemma Apart.perm_insert (h : Apart m) (hab : a < b) (hd : ∀ r ∈ m, r.2 ≤ a ∨ b ≤ r.1) :
    RangeMap.insert m a b ~ (a, b) :: m := by
  have hnot : (a, b) ∉ m := fun hmem => by
    have := hd _ hmem
    omega
  refine (perm_ext_iff_of_nodup (h.insert hab hd).nodup (nodup_cons.mpr ⟨hnot, h.nodup⟩)).mpr
    fun x => ?_
  rw [mem_cons, h.mem_insert hab hd, or_comm]

end Insert

lemma Apart.lastBelow (h : Apart m) {p : Nat → Bool} :
    (lastBelow m p = none ∧ ∀ r ∈ m, p r.1 = false) ∨
      ∃ q ∈ m, lastBelow m p = some q ∧ p q.1 = true ∧
        ∀ r ∈ m, p r.1 = true → r = q ∨ r.2 ≤ q.1 := by
  unfold RangeMap.lastBelow
  cases hlast : (m.filter fun r => p r.1).getLast? with
  | none =>
    refine .inl ⟨rfl, fun r hr => ?_⟩
    have hnil := List.getLast?_eq_none_iff.mp hlast
    have := filter_eq_nil_iff.mp hnil r hr
    simpa using this
  | some q =>
    have ⟨init, hinit⟩ := List.getLast?_eq_some_iff.mp hlast
    have hmem : ∀ r, r ∈ m ∧ p r.1 = true ↔ r ∈ init ∨ r = q := by
      intro r
      have hfilter : r ∈ m.filter (fun r => p r.1) ↔ r ∈ m ∧ p r.1 = true := mem_filter
      rw [← hfilter, hinit]
      simp
    have hq := (hmem q).mpr (.inr rfl)
    refine .inr ⟨q, hq.1, rfl, hq.2, fun r hr hpr => ?_⟩
    rcases (hmem r).mp ⟨hr, hpr⟩ with hr | hr
    · have horder := h.order.filter (fun r => p r.1)
      rw [hinit, pairwise_append] at horder
      exact .inr (horder.2.2 r hr q (mem_singleton.mpr rfl))
    · exact .inl hr

end RangeMap

namespace PageLocks

open RangeMap

variable {l l2 : PageLocks} {r : Nat × Nat} {start stop : Nat}

def Counted (l : PageLocks) : Prop := l.pages = (l.ranges.map fun r => r.2 - r.1).sum

/-- No range starts where another ends. -/
def Gaps (l : PageLocks) : Prop := ∀ r ∈ l.ranges, ∀ s ∈ l.ranges, r.2 ≠ s.1

structure Becomes (l l2 : PageLocks) (P : Nat × Nat → Prop) : Prop where
  apart : Apart l2.ranges
  counted : Counted l → Counted l2
  mem : ∀ x, x ∈ l2.ranges ↔ P x

lemma drop_becomes (h : Apart l.ranges) (hr : r ∈ l.ranges) :
    Becomes l (l.drop r) fun x => x ∈ l.ranges ∧ x ≠ r := by
  refine ⟨h.filter _, fun hc => ?_, fun x => h.mem_remove hr⟩
  have hsum := ((h.perm_remove hr).map fun r => r.2 - r.1).sum_eq
  rw [List.map_cons, List.sum_cons, ← hc] at hsum
  simp only [Counted, drop]
  omega

lemma add_becomes {a b : Nat} (h : Apart l.ranges) (hab : a < b)
    (hd : ∀ r ∈ l.ranges, r.2 ≤ a ∨ b ≤ r.1) :
    Becomes l (l.add a b) fun x => x ∈ l.ranges ∨ x = (a, b) := by
  refine ⟨h.insert hab hd, fun hc => ?_, fun x => h.mem_insert hab hd⟩
  have hsum := ((h.perm_insert hab hd).map fun r => r.2 - r.1).sum_eq
  rw [List.map_cons, List.sum_cons, ← hc] at hsum
  simp only [Counted, add]
  omega

structure Keeps (l l2 : PageLocks) (S : Nat → Prop) : Prop where
  apart : Apart l2.ranges
  counted : Counted l → Counted l2
  gaps : Gaps l → Gaps l2
  locked : ∀ p, l2.Locked p ↔ S p

/-! ### Unlocking -/

section Remove

/-- What `cut` leaves of `r`. -/
def Piece (start stop : Nat) (r x : Nat × Nat) : Prop :=
  (r.1 < start ∧ x = (r.1, start)) ∨ (stop < r.2 ∧ x = (stop, r.2))

lemma cut_becomes (h : Apart l.ranges) (hr : r ∈ l.ranges) (hwin : start < stop)
    (hlo : r.1 < stop) (hhi : start < r.2) :
    Becomes l (cut start stop l r) fun x =>
      (x ∈ l.ranges ∧ x ≠ r) ∨ Piece start stop r x := by
  have hdrop := drop_becomes h hr
  have hout : ∀ x ∈ (l.drop r).ranges, x.2 ≤ r.1 ∨ r.2 ≤ x.1 := by
    intro x hx
    obtain ⟨hx, hne⟩ := (hdrop.mem x).mp hx
    exact (h.compare hx hr).resolve_left hne
  -- the piece on the left, if there is one
  obtain ⟨l1, hl1, hleft⟩ : ∃ l1,
      (if r.1 < start then (l.drop r).add r.1 start else l.drop r) = l1 ∧
      Becomes l l1 fun x => (x ∈ l.ranges ∧ x ≠ r) ∨ (r.1 < start ∧ x = (r.1, start)) := by
    refine ⟨_, rfl, ?_⟩
    split
    next hlt =>
      have hadd := add_becomes hdrop.apart hlt fun x hx => (hout x hx).imp id fun hle =>
        hhi.le.trans hle
      refine ⟨hadd.apart, fun hc => hadd.counted (hdrop.counted hc), fun x => ?_⟩
      rw [hadd.mem, hdrop.mem]
      simp [hlt]
    next hge =>
      refine ⟨hdrop.apart, hdrop.counted, fun x => ?_⟩
      rw [hdrop.mem]
      simp [hge]
  unfold cut
  dsimp only
  rw [hl1]
  split
  next hlt =>
    have hadd := add_becomes hleft.apart hlt fun x hx => by
      rcases (hleft.mem x).mp hx with hx | ⟨-, rfl⟩
      · exact (hout x ((hdrop.mem x).mpr hx)).imp (fun hle => hle.trans hlo.le) id
      · exact .inl hwin.le
    refine ⟨hadd.apart, fun hc => hadd.counted (hleft.counted hc), fun x => ?_⟩
    rw [hadd.mem, hleft.mem]
    simp [Piece, hlt, or_assoc]
  next hge =>
    refine ⟨hleft.apart, hleft.counted, fun x => ?_⟩
    rw [hleft.mem]
    simp [Piece, hge]

lemma foldl_cut (hwin : start < stop) (hits : List (Nat × Nat)) :
    ∀ {l : PageLocks}, Apart l.ranges → hits.Nodup →
      (∀ r ∈ hits, r ∈ l.ranges ∧ r.1 < stop ∧ start < r.2) →
      Becomes l (hits.foldl (cut start stop) l) fun x =>
        (x ∈ l.ranges ∧ x ∉ hits) ∨ ∃ r ∈ hits, Piece start stop r x := by
  induction hits with
  | nil => exact fun h _ _ => ⟨h, id, by simp⟩
  | cons r hits ih =>
    intro l h hnodup hhits
    obtain ⟨hr, hlo, hhi⟩ := hhits r List.mem_cons_self
    obtain ⟨hnot, hnodup⟩ := List.nodup_cons.mp hnodup
    have hcut := cut_becomes h hr hwin hlo hhi
    have hrest := ih hcut.apart hnodup fun s hs => by
      obtain ⟨hs', hb⟩ := hhits s (List.mem_cons_of_mem _ hs)
      exact ⟨(hcut.mem s).mpr (.inl ⟨hs', fun heq => hnot (heq ▸ hs)⟩), hb⟩
    -- a piece of `r` is none of the ranges still to cut
    have hpiece : ∀ x, Piece start stop r x → x ∉ hits := by
      rintro x (⟨-, rfl⟩ | ⟨-, rfl⟩) hx
      · have heq := h.eq_of_start (hhits _ (List.mem_cons_of_mem _ hx)).1 hr rfl
        rw [← heq] at hhi
        exact absurd hhi (lt_irrefl _)
      · exact absurd (hhits _ (List.mem_cons_of_mem _ hx)).2.1 (lt_irrefl _)
    refine ⟨hrest.apart, fun hc => hrest.counted (hcut.counted hc), fun x => ?_⟩
    rw [List.foldl_cons, hrest.mem, hcut.mem, List.exists_mem_cons_iff, List.mem_cons]
    have := hpiece x
    tauto

lemma keeps_remove_hits (h : Apart l.ranges) (hwin : start < stop) {before : List (Nat × Nat)}
    (hnodup : before.Nodup)
    (hin : ∀ r, r ∈ before ↔ r ∈ l.ranges ∧ r.1 < start ∧ start < r.2) :
    Keeps l ((before ++ l.ranges.filter fun r => start ≤ r.1 ∧ r.1 < stop).foldl
      (cut start stop) l) fun p => l.Locked p ∧ ¬(start ≤ p ∧ p < stop) := by
  generalize heq : (before ++ l.ranges.filter fun r => start ≤ r.1 ∧ r.1 < stop) = hits
  have hhits : ∀ r, r ∈ hits ↔ r ∈ l.ranges ∧ r.1 < stop ∧ start < r.2 := by
    intro r
    rw [← heq, List.mem_append, hin, List.mem_filter, decide_eq_true_eq, ← and_or_left]
    refine and_congr_right fun hr => ?_
    have := h.proper r hr
    omega
  have hnodup : hits.Nodup := by
    rw [← heq]
    refine List.nodup_append.mpr ⟨hnodup, h.nodup.filter _, fun r hr s hs heq => ?_⟩
    have hlo := ((hin r).mp hr).2.1
    have hb := of_decide_eq_true (List.mem_filter.mp hs).2
    rw [heq] at hlo
    omega
  have hcut := foldl_cut hwin hits h hnodup fun r => (hhits r).mp
  -- a range that is left is part of one that was there, and stays out of the window
  have hpart : ∀ x ∈ (hits.foldl (cut start stop) l).ranges, ∃ r ∈ l.ranges,
      r.1 ≤ x.1 ∧ x.2 ≤ r.2 ∧ (x.1 = r.1 ∨ x.1 = stop) ∧ (x.2 = r.2 ∨ x.2 = start) ∧
      (x.2 ≤ start ∨ stop ≤ x.1) := by
    intro x hx
    rcases (hcut.mem x).mp hx with ⟨hx, hnot⟩ | ⟨r, hr, ⟨-, rfl⟩ | ⟨-, rfl⟩⟩
    · refine ⟨x, hx, le_rfl, le_rfl, .inl rfl, .inl rfl, ?_⟩
      rw [hhits] at hnot
      by_contra hb
      exact hnot ⟨hx, by omega, by omega⟩
    all_goals
      obtain ⟨hr, hlo, hhi⟩ := (hhits r).mp hr
      exact ⟨r, hr, by dsimp only; omega⟩
  refine ⟨hcut.apart, hcut.counted, fun hgaps x hx y hy => ?_, fun p => ⟨?_, ?_⟩⟩
  · have hx' := hcut.apart.proper x hx
    have hy' := hcut.apart.proper y hy
    obtain ⟨r, hr, hxr⟩ := hpart x hx
    obtain ⟨s, hs, hys⟩ := hpart y hy
    have := hgaps r hr s hs
    omega
  · rintro ⟨x, hx, hlo, hhi⟩
    obtain ⟨r, hr, hxr⟩ := hpart x hx
    exact ⟨⟨r, hr, by omega, by omega⟩, by omega⟩
  rintro ⟨⟨r, hr, hlo, hhi⟩, hp⟩
  by_cases hhit : r ∈ hits
  · obtain ⟨-, hb⟩ := (hhits r).mp hhit
    by_cases hps : p < start
    · have hpiece : Piece start stop r (r.1, start) := .inl ⟨by omega, rfl⟩
      exact ⟨_, (hcut.mem _).mpr (.inr ⟨r, hhit, hpiece⟩), hlo, hps⟩
    · have hpiece : Piece start stop r (stop, r.2) := .inr ⟨by omega, rfl⟩
      exact ⟨_, (hcut.mem _).mpr (.inr ⟨r, hhit, hpiece⟩), by dsimp only; omega, hhi⟩
  · exact ⟨r, (hcut.mem r).mpr (.inl ⟨hr, hhit⟩), hlo, hhi⟩

lemma keeps_remove (h : Apart l.ranges) (start stop : Nat) :
    Keeps l (l.remove start stop) fun p => l.Locked p ∧ ¬(start ≤ p ∧ p < stop) := by
  unfold remove
  split
  · exact ⟨h, id, id, fun p => ⟨fun hp => ⟨hp, by omega⟩, And.left⟩⟩
  rename_i hwin
  have hwin : start < stop := Nat.lt_of_not_le hwin
  rcases h.lastBelow (p := (· < start)) with ⟨hnone, hno⟩ | ⟨⟨s, e⟩, hq, hsome, hlt, hlast⟩
  · rw [hnone]
    refine keeps_remove_hits h hwin List.nodup_nil fun r => ⟨nofun, fun ⟨hr, hlo, _⟩ => ?_⟩
    exact absurd hlo (of_decide_eq_false (hno r hr))
  rw [hsome]
  simp only [decide_eq_true_eq] at hlt hlast
  dsimp only
  split
  next he =>
    refine keeps_remove_hits h hwin (List.nodup_singleton _) fun r => ?_
    rw [List.mem_singleton]
    constructor
    · rintro rfl
      exact ⟨hq, hlt, he⟩
    rintro ⟨hr, hlo, hhi⟩
    rcases hlast r hr hlo with rfl | hle
    · rfl
    · omega
  next he =>
    refine keeps_remove_hits h hwin List.nodup_nil fun r => ⟨nofun, fun ⟨hr, hlo, hhi⟩ => ?_⟩
    rcases hlast r hr hlo with rfl | hle
    · exact absurd hhi he
    · omega

end Remove

/-! ### Locking -/

section Insert

def absorb (st : Nat × PageLocks) (t : Nat × Nat) : Nat × PageLocks := (max st.1 t.2, st.2.drop t)

lemma foldl_absorb (ts : List (Nat × Nat)) :
    ∀ (stop : Nat) {l : PageLocks}, Apart l.ranges → ts.Nodup → (∀ t ∈ ts, t ∈ l.ranges) →
      Becomes l (ts.foldl absorb (stop, l)).2 (fun x => x ∈ l.ranges ∧ x ∉ ts) ∧
      stop ≤ (ts.foldl absorb (stop, l)).1 ∧ (∀ t ∈ ts, t.2 ≤ (ts.foldl absorb (stop, l)).1) ∧
      ((ts.foldl absorb (stop, l)).1 = stop ∨ ∃ t ∈ ts, (ts.foldl absorb (stop, l)).1 = t.2) := by
  induction ts with
  | nil => exact fun _ _ h _ _ => ⟨⟨h, id, by simp⟩, le_rfl, nofun, .inl rfl⟩
  | cons t ts ih =>
    intro stop l h hnodup hts
    obtain ⟨hnot, hnodup⟩ := List.nodup_cons.mp hnodup
    have hdrop := drop_becomes h (hts t List.mem_cons_self)
    obtain ⟨hrest, hle, hall, hreach⟩ := ih (max stop t.2) hdrop.apart hnodup fun x hx =>
      (hdrop.mem x).mpr ⟨hts x (List.mem_cons_of_mem _ hx), fun heq => hnot (heq ▸ hx)⟩
    rw [List.foldl_cons]
    refine ⟨⟨hrest.apart, fun hc => hrest.counted (hdrop.counted hc), fun x => ?_⟩,
      (le_max_left ..).trans hle, fun x hx => ?_, ?_⟩
    · exact (hrest.mem x).trans (by rw [hdrop.mem, List.mem_cons, not_or, and_assoc])
    · rcases List.mem_cons.mp hx with rfl | hx
      · exact (le_max_right ..).trans hle
      · exact hall x hx
    rcases hreach with hreach | ⟨x, hx, hreach⟩
    · rcases le_total t.2 stop with hts | hts
      · exact .inl (hreach.trans (max_eq_left hts))
      · exact .inr ⟨t, List.mem_cons_self, hreach.trans (max_eq_right hts)⟩
    · exact .inr ⟨x, List.mem_cons_of_mem _ hx, hreach⟩

lemma keeps_absorb (h : Apart l.ranges) {first : Nat} (ts : List (Nat × Nat)) (hwin : start < stop)
    (hfirst : first ≤ start) (hnodup : ts.Nodup) (hts : ∀ t ∈ ts, t ∈ l.ranges ∧ first ≤ t.1)
    (hbefore : ∀ p, first ≤ p → p < start → l.Locked p)
    (hjoin : ∀ t ∈ ts, ∀ p, stop ≤ p → p < t.1 → l.Locked p)
    (hrest : ∀ x ∈ l.ranges, x ∉ ts → x.2 ≤ first ∨ (stop < x.1 ∧ ∀ t ∈ ts, t.1 < x.1))
    (hedge : ∀ x ∈ l.ranges, x.2 = first → ∃ q ∈ l.ranges, q.1 = first) :
    Keeps l ((ts.foldl absorb (stop, l)).2.add first (ts.foldl absorb (stop, l)).1)
      fun p => l.Locked p ∨ (start ≤ p ∧ p < stop) := by
  obtain ⟨hleft, hle, hall, hreach⟩ := foldl_absorb ts stop h hnodup fun t ht => (hts t ht).1
  generalize ts.foldl absorb (stop, l) = out at hleft hle hall hreach ⊢
  obtain ⟨last, l1⟩ := out
  dsimp only at hleft hle hall hreach ⊢
  -- what is left is before the whole or after it
  have hout : ∀ x ∈ l1.ranges, x.2 ≤ first ∨ last ≤ x.1 := by
    intro x hx
    obtain ⟨hx, hnot⟩ := (hleft.mem x).mp hx
    refine (hrest x hx hnot).imp id fun ⟨hstop, hlt⟩ => ?_
    rcases hreach with rfl | ⟨t, ht, rfl⟩
    · exact hstop.le
    have htx := hlt t ht
    have := h.proper x hx
    rcases h.compare (hts t ht).1 hx with rfl | hle | hle
    · exact absurd ht hnot
    · exact hle
    · omega
  have hadd := add_becomes hleft.apart (show first < last by omega) hout
  refine ⟨hadd.apart, fun hc => hadd.counted (hleft.counted hc), fun hgaps => ?_,
    fun p => ⟨?_, ?_⟩⟩
  · have hlow : ∀ x ∈ l.ranges, x.2 ≠ first := by
      intro x hx heq
      obtain ⟨q, hq, hqf⟩ := hedge x hx heq
      exact hgaps x hx q hq (heq.trans hqf.symm)
    have hhigh : ∀ x ∈ l.ranges, x ∉ ts → last ≠ x.1 := by
      intro x hx hnot
      rcases hreach with rfl | ⟨t, ht, rfl⟩
      · rcases hrest x hx hnot with hle | hlt
        · have := h.proper x hx
          omega
        · omega
      · exact hgaps t (hts t ht).1 x hx
    intro x hx y hy
    rcases (hadd.mem x).mp hx with hx | rfl
    · obtain ⟨hx, -⟩ := (hleft.mem x).mp hx
      rcases (hadd.mem y).mp hy with hy | rfl
      · exact hgaps x hx y ((hleft.mem y).mp hy).1
      · exact hlow x hx
    rcases (hadd.mem y).mp hy with hy | rfl
    · obtain ⟨hy, hnot⟩ := (hleft.mem y).mp hy
      exact hhigh y hy hnot
    · dsimp only
      omega
  · rintro ⟨x, hx, hlo, hhi⟩
    rcases (hadd.mem x).mp hx with hx | rfl
    · exact .inl ⟨x, ((hleft.mem x).mp hx).1, hlo, hhi⟩
    by_cases hps : p < start
    · exact .inl (hbefore p hlo hps)
    by_cases hpe : p < stop
    · exact .inr ⟨by omega, hpe⟩
    rcases hreach with rfl | ⟨t, ht, rfl⟩
    · exact absurd hhi hpe
    by_cases hpt : p < t.1
    · exact .inl (hjoin t ht p (by omega) hpt)
    · exact .inl ⟨t, (hts t ht).1, by omega, hhi⟩
  rintro (⟨x, hx, hlo, hhi⟩ | hp)
  · by_cases hxt : x ∈ ts
    · have h1 := (hts x hxt).2
      have h2 := hall x hxt
      exact ⟨_, (hadd.mem _).mpr (.inr rfl), by dsimp only; omega, by dsimp only; omega⟩
    · exact ⟨x, (hadd.mem x).mpr (.inl ((hleft.mem x).mpr ⟨hx, hxt⟩)), hlo, hhi⟩
  · exact ⟨_, (hadd.mem _).mpr (.inr rfl), by dsimp only; omega, by dsimp only; omega⟩

lemma keeps_absorb_touching (h : Apart l.ranges) (hwin : start < stop)
    (hbefore : ∀ r ∈ l.ranges, r.1 ≤ start → r.2 < start) :
    Keeps l (((l.ranges.filter fun r => start ≤ r.1 ∧ r.1 ≤ stop).foldl absorb (stop, l)).2.add
      start ((l.ranges.filter fun r => start ≤ r.1 ∧ r.1 ≤ stop).foldl absorb (stop, l)).1)
      fun p => l.Locked p ∨ (start ≤ p ∧ p < stop) := by
  have htouch : ∀ t, t ∈ (l.ranges.filter fun r => start ≤ r.1 ∧ r.1 ≤ stop) ↔
      t ∈ l.ranges ∧ start ≤ t.1 ∧ t.1 ≤ stop := by simp
  refine keeps_absorb h _ hwin le_rfl (h.nodup.filter _) (fun t ht => ?_) (by omega)
    (fun t ht p hp hlt => ?_) (fun x hx hnot => ?_) fun x hx heq => ?_
  · obtain ⟨ht, hlo, -⟩ := (htouch t).mp ht
    exact ⟨ht, hlo⟩
  · have := ((htouch t).mp ht).2.2
    omega
  · rw [htouch] at hnot
    by_cases hlo : x.1 ≤ start
    · exact .inl (hbefore x hx hlo).le
    have hgt : stop < x.1 := by
      by_contra hge
      exact hnot ⟨hx, by omega, by omega⟩
    exact .inr ⟨hgt, fun t ht => ((htouch t).mp ht).2.2.trans_lt hgt⟩
  · have := hbefore x hx
    have := h.proper x hx
    omega

lemma keeps_insert (h : Apart l.ranges) (start stop : Nat) :
    Keeps l (l.insert start stop) fun p => l.Locked p ∨ (start ≤ p ∧ p < stop) := by
  unfold insert
  split
  · exact ⟨h, id, id, fun p => ⟨.inl, fun hp => hp.resolve_right (by omega)⟩⟩
  rename_i hwin
  have hwin : start < stop := Nat.lt_of_not_le hwin
  rcases h.lastBelow (p := (· ≤ start)) with ⟨hnone, hno⟩ | ⟨⟨s, e⟩, hq, hsome, hle, hlast⟩
  · rw [hnone]
    exact keeps_absorb_touching h hwin fun r hr hlo => absurd hlo (of_decide_eq_false (hno r hr))
  rw [hsome]
  simp only [decide_eq_true_eq] at hle hlast
  have hse := h.proper _ hq
  dsimp only at hse ⊢
  split
  · -- the range before reaches the start, and is absorbed first
    rename_i he
    have hdrop := drop_becomes h hq
    have htouch : ∀ t, t ∈ ((l.drop (s, e)).ranges.filter fun r => s ≤ r.1 ∧ r.1 ≤ max stop e) ↔
        (t ∈ l.ranges ∧ t ≠ (s, e)) ∧ s ≤ t.1 ∧ t.1 ≤ max stop e := by
      intro t
      rw [List.mem_filter, hdrop.mem, decide_eq_true_eq]
    have hlock : ∀ p, s ≤ p → p < e → l.Locked p := fun p h1 h2 => ⟨_, hq, h1, h2⟩
    refine keeps_absorb h ((s, e) :: _) hwin hle
      (List.nodup_cons.mpr ⟨fun ht => ((htouch _).mp ht).1.2 rfl, hdrop.apart.nodup.filter _⟩)
      (fun t ht => ?_) (fun p h1 h2 => hlock p h1 (by omega)) (fun t ht p hp hlt => ?_)
      (fun x hx hnot => ?_) fun x hx _ => ⟨_, hq, rfl⟩
    · rcases List.mem_cons.mp ht with rfl | ht
      · exact ⟨hq, le_rfl⟩
      · obtain ⟨⟨ht, -⟩, hlo, -⟩ := (htouch t).mp ht
        exact ⟨ht, hlo⟩
    · refine hlock p (by omega) ?_
      rcases List.mem_cons.mp ht with rfl | ht
      · dsimp only at hlt
        omega
      · have := ((htouch t).mp ht).2.2
        omega
    rw [List.mem_cons, htouch, not_or] at hnot
    by_cases hlo : x.1 ≤ start
    · exact .inl ((hlast x hx hlo).resolve_left hnot.1)
    have hgt : max stop e < x.1 := by
      by_contra hge
      exact hnot.2 ⟨⟨hx, hnot.1⟩, by omega, by omega⟩
    refine .inr ⟨by omega, fun t ht => ?_⟩
    rcases List.mem_cons.mp ht with rfl | ht
    · dsimp only
      omega
    · exact ((htouch t).mp ht).2.2.trans_lt hgt
  next he =>
    refine keeps_absorb_touching h hwin fun r hr hlo => ?_
    rcases hlast r hr hlo with rfl | hle'
    · dsimp only
      omega
    · omega

end Insert

/-! ### The set of pages -/

inductive Op
  | insert (start stop : Nat)
  | remove (start stop : Nat)
  | clear

def act (l : PageLocks) : Op → PageLocks
  | .insert start stop => l.insert start stop
  | .remove start stop => l.remove start stop
  | .clear => l.clear

def Op.denote (s : Finset Nat) : Op → Finset Nat
  | .insert start stop => s ∪ Finset.Ico start stop
  | .remove start stop => s \ Finset.Ico start stop
  | .clear => ∅

structure Denotes (l : PageLocks) (s : Finset Nat) : Prop where
  apart : Apart l.ranges
  counted : Counted l
  gaps : Gaps l
  locked : ∀ p, l.Locked p ↔ p ∈ s

lemma Keeps.denotes {s s' : Finset Nat} {S : Nat → Prop} (hk : Keeps l l2 S) (h : Denotes l s)
    (hS : ∀ p, S p ↔ p ∈ s') : Denotes l2 s' :=
  ⟨hk.apart, hk.counted h.counted, hk.gaps h.gaps, fun p => (hk.locked p).trans (hS p)⟩

lemma Denotes.default : Denotes default ∅ :=
  ⟨⟨.nil, nofun⟩, rfl, nofun, fun _ => ⟨nofun, nofun⟩⟩

lemma Denotes.act {s : Finset Nat} (h : Denotes l s) (op : Op) : Denotes (l.act op) (op.denote s) := by
  cases op with
  | insert start stop =>
    refine (keeps_insert h.apart start stop).denotes h fun p => ?_
    rw [h.locked, Op.denote, Finset.mem_union, Finset.mem_Ico]
  | remove start stop =>
    refine (keeps_remove h.apart start stop).denotes h fun p => ?_
    rw [h.locked, Op.denote, Finset.mem_sdiff, Finset.mem_Ico]
  | clear => exact .default

lemma Denotes.run (ops : List Op) : ∀ {l : PageLocks} {s : Finset Nat}, Denotes l s →
    Denotes (ops.foldl PageLocks.act l) (ops.foldl Op.denote s) := by
  induction ops with
  | nil => exact fun h => h
  | cons op ops ih => exact fun h => ih (h.act op)

lemma foldl_add_map (f : Nat × Nat → Nat) (m : List (Nat × Nat)) : ∀ n,
    m.foldl (fun n r => n + f r) n = n + (m.map f).sum := by
  induction m with
  | nil => exact fun _ => rfl
  | cons r m ih =>
    intro n
    rw [List.foldl_cons, ih, List.map_cons, List.sum_cons, add_assoc]

lemma Denotes.pages {s : Finset Nat} (h : Denotes l s) : l.pages = s.card := by
  have hs : s = l.ranges.toFinset.biUnion fun r => Finset.Ico r.1 r.2 := by
    ext p
    rw [← h.locked]
    simp [Locked]
  rw [hs, h.apart.card_biUnion fun r _ => subset_rfl, List.sum_toFinset _ h.apart.nodup, h.counted]
  simp

lemma Denotes.lockedWithin {s : Finset Nat} (h : Denotes l s) (start stop : Nat) :
    l.lockedWithin start stop = (s ∩ Finset.Ico start stop).card := by
  have hs : s ∩ Finset.Ico start stop =
      l.ranges.toFinset.biUnion fun r => Finset.Ico (max r.1 start) (min r.2 stop) := by
    ext p
    rw [Finset.mem_inter, ← h.locked]
    simp only [Locked, Finset.mem_biUnion, List.mem_toFinset, Finset.mem_Ico]
    constructor
    · rintro ⟨⟨r, hr, hb⟩, hp⟩
      exact ⟨r, hr, by omega⟩
    · rintro ⟨r, hr, hb⟩
      exact ⟨⟨r, hr, by omega⟩, by omega⟩
  rw [hs, h.apart.card_biUnion fun r _ => Finset.Ico_subset_Ico (le_max_left ..) (min_le_left ..),
    ← Finset.sum_filter_add_sum_filter_not _ fun r => start + 1 ≤ r.1 ∧ r.1 < stop]
  simp only [Nat.card_Ico]
  have hwithin : ∑ r ∈ l.ranges.toFinset with start + 1 ≤ r.1 ∧ r.1 < stop,
      (min r.2 stop - max r.1 start) =
      ((l.ranges.filter fun r => start + 1 ≤ r.1 ∧ r.1 < stop).map fun r =>
        min r.2 stop - r.1).sum := by
    rw [← List.sum_toFinset _ (h.apart.nodup.filter _), List.toFinset_filter]
    refine Finset.sum_congr (by simp) fun r hr => ?_
    have := of_decide_eq_true (Finset.mem_filter.mp hr).2
    rw [max_eq_left (by omega)]
  rw [hwithin, add_comm, PageLocks.lockedWithin, foldl_add_map]
  congr 1
  -- of the others, only the last one before the start can reach the window
  rcases h.apart.lastBelow (p := (· ≤ start)) with ⟨hnone, hno⟩ | ⟨q, hq, hsome, hle, hlast⟩
  · rw [hnone]
    refine (Finset.sum_eq_zero fun r hr => ?_).symm
    obtain ⟨hr, hnot⟩ := Finset.mem_filter.mp hr
    have := of_decide_eq_false (hno r (List.mem_toFinset.mp hr))
    omega
  rw [hsome]
  have hle := of_decide_eq_true hle
  rw [Finset.sum_eq_single_of_mem q (Finset.mem_filter.mpr ⟨List.mem_toFinset.mpr hq, by omega⟩),
    max_eq_right hle]
  intro r hr hne
  obtain ⟨hr, hnot⟩ := Finset.mem_filter.mp hr
  by_cases hlo : r.1 ≤ start
  · have := (hlast r (List.mem_toFinset.mp hr) (decide_eq_true hlo)).resolve_left hne
    omega
  · omega

/-- **A lock set denotes its pages**: it is the set of pages locked and not unlocked, in disjoint
ranges that do not touch, and counted right. -/
theorem denotes_pages (ops : List Op) :
    let l := ops.foldl act default
    let s := ops.foldl Op.denote ∅
    (∀ p, l.Locked p ↔ p ∈ s) ∧ (∀ r ∈ l.ranges, r.1 < r.2) ∧
      l.ranges.Pairwise (fun r s => r.2 < s.1) ∧ l.pages = s.card ∧
      ∀ start stop, start < stop →
        l.lockedWithin start stop = (s ∩ Finset.Ico start stop).card := by
  intro l s
  have h : Denotes l s := .run ops .default
  refine ⟨h.locked, h.apart.proper, ?_, h.pages, fun start stop _ => h.lockedWithin start stop⟩
  exact (List.Pairwise.and_mem.mp h.apart.order).imp fun ⟨hr, hs, hle⟩ =>
    lt_of_le_of_ne hle (h.gaps _ hr _ hs)

end PageLocks

end NixVm
