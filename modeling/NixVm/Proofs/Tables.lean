/-
The tables beside the page tables: which pages are mapped, how many, which have a fork policy and
which are locked.

Every operation that replaces a mapping has all of them to update.
-/
import NixVm.Proofs.Act
import NixVm.Proofs.PageLocks

namespace NixVm

open List GuestMemory PageVec

open RangeMap (Apart)

/-! ### Counting pages -/

/-- How many of the first `n` pages satisfy `v`. -/
def live (n : Nat) (v : Nat → Bool) : Nat := ((List.range n).filter v).length

lemma live_succ (n : Nat) (v : Nat → Bool) : live (n + 1) v = live n v + if v n then 1 else 0 := by
  rw [live, range_succ, filter_append, length_append]
  cases h : v n with
  | true => simp [h, live]
  | false => simp [h, live]

lemma live_congr {n : Nat} {v w : Nat → Bool} (h : ∀ p < n, v p = w p) : live n v = live n w := by
  unfold live
  rw [filter_congr fun p hp => h p (mem_range.mp hp)]

lemma live_set {n p : Nat} (hp : p < n) (v : PageVec Bool) (b : Bool) :
    live n (v.set p b) + (if v p then 1 else 0) = live n v + if b then 1 else 0 := by
  induction n with
  | zero => omega
  | succ n ih =>
    rw [live_succ, live_succ]
    by_cases hpn : p = n
    · subst hpn
      rw [set_self, live_congr fun q hq => set_other v (ne_of_lt hq) b]
      omega
    have := ih (by omega)
    rw [set_other v (Ne.symm hpn) b]
    omega

lemma live_diff (n : Nat) (v w : Nat → Bool) :
    live n (fun p => if w p then false else v p) + live n (fun p => w p && v p) = live n v := by
  induction n with
  | zero => rfl
  | succ n ih =>
    rw [live_succ, live_succ, live_succ]
    generalize live n (fun p => if w p then false else v p) = a at ih ⊢
    generalize live n (fun p => w p && v p) = b at ih ⊢
    cases hw : w n with
    | true | false => cases hv : v n <;> simp <;> omega

namespace GuestMemory

/-- The tables agree with each other, apart from the locks. -/
structure Books (g : GuestMemory) : Prop where
  aligned : g.size % 4096 = 0
  policy : ∀ p, g.forkPolicy p ≠ none → g.mapped p = true
  inside : ∀ p, g.mapped p = true → p < g.npages
  count : g.mappedCount = live g.npages g.mapped

structure Sound (g : GuestMemory) : Prop extends Books g where
  apart : Apart g.locks.ranges
  locked : ∀ p, g.locks.Locked p → g.mapped p = true

structure SameTables (g g' : GuestMemory) : Prop where
  size : g'.size = g.size
  mapped : g'.mapped = g.mapped
  mappedCount : g'.mappedCount = g.mappedCount
  forkPolicy : g'.forkPolicy = g.forkPolicy
  locks : g'.locks = g.locks

lemma SameTables.refl (g : GuestMemory) : SameTables g g := ⟨rfl, rfl, rfl, rfl, rfl⟩

lemma SameTables.trans {g g' g'' : GuestMemory} (h : SameTables g g') (h' : SameTables g' g'') :
    SameTables g g'' :=
  ⟨h'.size.trans h.size, h'.mapped.trans h.mapped, h'.mappedCount.trans h.mappedCount,
    h'.forkPolicy.trans h.forkPolicy, h'.locks.trans h.locks⟩

lemma Sound.same {g g' : GuestMemory} (h : Sound g) (hs : SameTables g g') : Sound g' := by
  have hn : g'.npages = g.npages := by rw [npages, npages, hs.size]
  refine ⟨⟨hs.size ▸ h.aligned, ?_, ?_, ?_⟩, hs.locks ▸ h.apart, ?_⟩
  · rw [hs.forkPolicy, hs.mapped]
    exact h.policy
  · rw [hs.mapped, hn]
    exact h.inside
  · rw [hs.mappedCount, hs.mapped, hn]
    exact h.count
  · rw [hs.locks, hs.mapped]
    exact h.locked

/-! ### One page -/

variable {g : GuestMemory}

lemma set_true_of (v : PageVec Bool) (p : Nat) {q : Nat} (h : v q = true) :
    v.set p true q = true := by
  unfold PageVec.set
  split
  · rfl
  · exact h

lemma Books.recordPage (h : Books g) {p : Nat} (hp : p < g.npages) (prot : Prot)
    (sharedAnon : Bool) : Books (g.recordPage p prot sharedAnon) := by
  refine ⟨h.aligned, fun q hq => set_true_of _ p (h.policy q hq), fun q hq => ?_, ?_⟩
  · by_cases hqp : q = p
    · rw [hqp]
      exact hp
    · exact h.inside q (by rw [← set_other g.mapped hqp true]; exact hq)
  have := live_set hp g.mapped true
  have hcount := h.count
  show g.mappedCount + (if g.mapped p then 0 else 1) = live g.npages (g.mapped.set p true)
  cases hm : g.mapped p with
  | true | false => simp [hm] at this ⊢; omega

lemma Books.mapPage (h : Books g) {p : Nat} (hp : p < g.npages) (prot : Prot) (pl : Pool) :
    Books (mapPage prot (g, pl) p).1 := by
  have hrec := h.recordPage hp prot false
  refine ⟨hrec.aligned, fun q hq => hrec.policy q fun hnone => hq ?_, hrec.inside, hrec.count⟩
  show g.forkPolicy.set p none q = none
  unfold PageVec.set
  split
  · rfl
  · exact hnone

lemma Books.unmapPage (h : Books g) {p : Nat} (hp : p < g.npages) (pl : Pool) :
    Books (unmapPage (g, pl) p).1 := by
  refine ⟨h.aligned, fun q hq => ?_, fun q hq => ?_, ?_⟩
  · have hq : g.forkPolicy.set p none q ≠ none := hq
    show g.mapped.set p false q = true
    by_cases hqp : q = p
    · rw [hqp, set_self] at hq
      exact absurd rfl hq
    · rw [set_other _ hqp] at hq ⊢
      exact h.policy q hq
  · have hq : g.mapped.set p false q = true := hq
    by_cases hqp : q = p
    · rw [hqp]
      exact hp
    · exact h.inside q (by rw [← set_other g.mapped hqp false]; exact hq)
  have := live_set hp g.mapped false
  have hcount := h.count
  show g.mappedCount - (if g.mapped p then 1 else 0) = live g.npages (g.mapped.set p false)
  cases hm : g.mapped p with
  | true | false => simp [hm] at this ⊢; omega

/-! ### The loops -/

/-- A page that has nothing left of an earlier mapping but its lock. -/
def Blank (g : GuestMemory) (p : Nat) : Prop := g.forkPolicy p = none ∧ g.fileBacked p = false

/-- A step of `map` or `unmap`: it leaves its page blank and the others as they are. -/
def Clears (f : GuestMemory × Pool → Nat → GuestMemory × Pool) : Prop :=
  ∀ st q, Books st.1 → q < st.1.npages → Books (f st q).1 ∧ (f st q).1.npages = st.1.npages ∧
    (f st q).1.locks = st.1.locks ∧ (f st q).1.forkPolicy = st.1.forkPolicy.set q none ∧
    (f st q).1.fileBacked = st.1.fileBacked.set q false ∧
    ∃ b, (f st q).1.mapped = st.1.mapped.set q b

lemma clears_mapPage (prot : Prot) : Clears (mapPage prot) :=
  fun st _ h hq => ⟨h.mapPage hq prot st.2, rfl, rfl, rfl, rfl, true, rfl⟩

lemma clears_unmapPage : Clears unmapPage :=
  fun st _ h hq => ⟨h.unmapPage hq st.2, rfl, rfl, rfl, rfl, false, rfl⟩

lemma clear_spec {f : GuestMemory × Pool → Nat → GuestMemory × Pool} (hf : Clears f)
    (ps : List Nat) : ∀ st : GuestMemory × Pool, Books st.1 → (∀ p ∈ ps, p < st.1.npages) →
      let g' := (ps.foldl f st).1
      Books g' ∧ g'.locks = st.1.locks ∧ (∀ p ∉ ps, g'.mapped p = st.1.mapped p) ∧
      ∀ p, (p ∈ ps ∨ Blank st.1 p) → Blank g' p := by
  induction ps with
  | nil => exact fun st h _ => ⟨h, rfl, fun p _ => rfl, fun p hp => hp.resolve_left nofun⟩
  | cons q ps ih =>
    intro st h hlt
    obtain ⟨hb, hn, hl, hpol, hfile, b, hmap⟩ := hf st q h (hlt q mem_cons_self)
    obtain ⟨hbooks, hlocks, hsame, hblank⟩ := ih (f st q) hb
      fun p hp => hn ▸ hlt p (mem_cons_of_mem _ hp)
    refine ⟨hbooks, hlocks.trans hl, fun p hp => ?_, fun p hp => hblank p ?_⟩
    · rw [mem_cons, not_or] at hp
      rw [foldl_cons, hsame p hp.2, hmap, set_other _ hp.1]
    rw [Blank, hpol, hfile]
    by_cases hpq : p = q
    · rw [hpq]
      exact .inr ⟨set_self .., set_self ..⟩
    · rw [set_other _ hpq, set_other _ hpq]
      exact hp.imp_left fun hp => (mem_cons.mp hp).resolve_left hpq

lemma mapFramesLoop_spec (prot : Prot) (ps : List Nat) :
    ∀ {frames : List Nat} {g : GuestMemory} {pl : Pool} {r : Outcome}, Books g →
      (∀ p ∈ ps, p < g.npages) → mapFramesLoop prot ps frames g pl = some r →
      Books r.2.1 ∧ r.2.1.locks = g.locks ∧ r.2.1.forkPolicy = g.forkPolicy ∧
      (∀ p, g.mapped p = true → r.2.1.mapped p = true) ∧
      (r.1.isOk = true → ∀ p, (p ∈ ps ∨ g.fileBacked p = false) → r.2.1.fileBacked p = false) := by
  induction ps with
  | nil =>
    intro frames g pl r h _ hr
    cases hr
    exact ⟨h, rfl, rfl, fun p hp => hp, fun _ p hp => hp.resolve_left nofun⟩
  | cons q ps ih =>
    intro frames g pl r h hlt hr
    cases frames with
    | nil => cases hr
    | cons frame frames =>
      unfold mapFramesLoop at hr
      dsimp only at hr
      split at hr
      · cases hr
        exact ⟨⟨h.aligned, h.policy, h.inside, h.count⟩, rfl, rfl, fun p hp => hp, nofun⟩
      have hbooks : Books ({ g with tlbDirty := g.tlbDirty || (g.dropPage q pl).1 } :
          GuestMemory) := ⟨h.aligned, h.policy, h.inside, h.count⟩
      obtain ⟨hb, hlocks, hpolicy, hmono, hfile⟩ := ih
        (hbooks.recordPage (hlt q mem_cons_self) prot true)
        (fun p hp => hlt p (mem_cons_of_mem _ hp)) hr
      refine ⟨hb, hlocks, hpolicy, fun p hp => hmono p (set_true_of _ q hp),
        fun hok p hp => hfile hok p ?_⟩
      by_cases hpq : p = q
      · rw [hpq]
        exact .inr (set_self ..)
      · exact hp.imp (fun hp => (mem_cons.mp hp).resolve_left hpq)
          fun hp => (set_other _ hpq _).trans hp

/-! ### Calls that replace mappings -/

/-- A page that has nothing left of an earlier mapping. -/
def Forgotten (g : GuestMemory) (p : Nat) : Prop := Blank g p ∧ ¬g.locks.Locked p

lemma Sound.clear (h : Sound g) {f : GuestMemory × Pool → Nat → GuestMemory × Pool}
    (hf : Clears f) {addr len : Nat} {r : Nat × Nat} (hspan : g.pageSpan addr len = .ok r)
    (pl : Pool) : let g' := ((pagesOf r).foldl f (g, pl)).1
    Sound { g' with locks := g'.locks.remove r.1 (r.2 + 1) } ∧
      ∀ p ∈ pagesOf r, Forgotten { g' with locks := g'.locks.remove r.1 (r.2 + 1) } p := by
  obtain ⟨hbooks, hlocks, hsame, hblank⟩ := clear_spec hf (pagesOf r) (g, pl) h.toBooks
    (pageSpan_lt h.aligned hspan)
  obtain ⟨hapart, -, -, hunlocked⟩ := PageLocks.keeps_remove h.apart r.1 (r.2 + 1)
  rw [← hlocks] at hapart hunlocked
  have hout : ∀ p ∈ pagesOf r, r.1 ≤ p ∧ p < r.2 + 1 := by
    intro p hp
    have := mem_pagesOf.mp hp
    omega
  refine ⟨⟨⟨hbooks.aligned, hbooks.policy, hbooks.inside, hbooks.count⟩, hapart, fun p hp => ?_⟩,
    fun p hp => ⟨hblank p (.inl hp), fun hl => ((hunlocked p).mp hl).2 (hout p hp)⟩⟩
  obtain ⟨hl, hno⟩ := (hunlocked p).mp hp
  exact (hsame p fun hmem => hno (hout p hmem)).trans (h.locked p (hlocks ▸ hl))

lemma Sound.map (h : Sound g) (addr len : Nat) (prot : Prot) (pl : Pool) :
    Sound (g.map addr len prot pl).2.1 ∧
      ∀ r, len ≠ 0 → g.pageSpan addr len = .ok r → ∀ p ∈ pagesOf r,
        Forgotten (g.map addr len prot pl).2.1 p := by
  by_cases hlen : len = 0
  · rw [GuestMemory.map, if_pos hlen]
    exact ⟨h, fun r hne => absurd hlen hne⟩
  cases hspan : g.pageSpan addr len with
  | error e =>
    simp only [GuestMemory.map, if_neg hlen, hspan]
    exact ⟨h, fun r _ hr => by cases hr⟩
  | ok r =>
    rw [map_ok hlen hspan]
    obtain ⟨hsound, hgone⟩ := h.clear (clears_mapPage prot) hspan pl
    exact ⟨hsound, fun _ _ hr p hp => by cases hr; exact hgone p hp⟩

lemma Sound.unmap (h : Sound g) (addr len : Nat) (pl : Pool) : Sound (g.unmap addr len pl).2.1 ∧
      ∀ r, len ≠ 0 → g.pageSpan addr len = .ok r → ∀ p ∈ pagesOf r,
        Forgotten (g.unmap addr len pl).2.1 p := by
  by_cases hlen : len = 0
  · rw [GuestMemory.unmap, if_pos hlen]
    exact ⟨h, fun r hne => absurd hlen hne⟩
  cases hspan : g.pageSpan addr len with
  | error e =>
    simp only [GuestMemory.unmap, if_neg hlen, hspan]
    exact ⟨h, fun r _ hr => by cases hr⟩
  | ok r =>
    rw [unmap_ok hlen hspan]
    obtain ⟨hsound, hgone⟩ := h.clear clears_unmapPage hspan pl
    exact ⟨hsound, fun _ _ hr p hp => by cases hr; exact hgone p hp⟩

lemma backShared_same (ps : List Nat) :
    ∀ (g : GuestMemory) (pl : Pool), SameTables g (backShared ps g pl).2.1 ∧
      (backShared ps g pl).2.1.fileBacked = g.fileBacked := by
  induction ps with
  | nil => exact fun g pl => ⟨.refl g, rfl⟩
  | cons q ps ih =>
    intro g pl
    unfold backShared
    dsimp only
    split
    · exact ⟨⟨rfl, rfl, rfl, rfl, rfl⟩, rfl⟩
    rename_i pl' _
    obtain ⟨hsame, hfile⟩ := ih { g with sharedAnon := g.sharedAnon.set q true } pl'
    have hset : SameTables g { g with sharedAnon := g.sharedAnon.set q true } :=
      ⟨rfl, rfl, rfl, rfl, rfl⟩
    exact ⟨hset.trans hsame, hfile⟩

lemma backed_same (span : GuestMemory → Nat → Nat → Except MemError (Nat × Nat))
    (addr len : Nat) (st : Outcome) : let st' : Outcome := match st with
      | (.error e, g, pl) => (.error e, g, pl)
      | (.ok _, g, pl) =>
        match span g addr len with
        | .error e => (.error e, g, pl)
        | .ok r => backShared (pagesOf r) g pl
    SameTables st.2.1 st'.2.1 ∧ st'.2.1.fileBacked = st.2.1.fileBacked := by
  obtain ⟨res, g, pl⟩ := st
  cases res with
  | error e => exact ⟨.refl g, rfl⟩
  | ok u =>
    dsimp only
    cases span g addr len with
    | error e => exact ⟨.refl g, rfl⟩
    | ok r => exact backShared_same _ g pl

lemma mapSharedAnon_same (g : GuestMemory) (addr len : Nat) (prot : Prot) (pl : Pool) :
    SameTables (g.map addr len prot pl).2.1 (g.mapSharedAnon addr len prot pl).2.1 ∧
      (g.mapSharedAnon addr len prot pl).2.1.fileBacked =
        (g.map addr len prot pl).2.1.fileBacked := by
  unfold mapSharedAnon
  generalize g.map addr len prot pl = st
  exact backed_same pageSpan addr len st

lemma Forgotten.same {g g' : GuestMemory} {p : Nat} (h : Forgotten g p) (hs : SameTables g g')
    (hfile : g'.fileBacked = g.fileBacked) : Forgotten g' p := by
  refine ⟨⟨?_, ?_⟩, ?_⟩
  · rw [hs.forkPolicy]
    exact h.1.1
  · rw [hfile]
    exact h.1.2
  · rw [hs.locks]
    exact h.2

lemma Sound.mapSharedAnon (h : Sound g) (addr len : Nat) (prot : Prot) (pl : Pool) :
    Sound (g.mapSharedAnon addr len prot pl).2.1 ∧
      ∀ r, len ≠ 0 → g.pageSpan addr len = .ok r → ∀ p ∈ pagesOf r,
        Forgotten (g.mapSharedAnon addr len prot pl).2.1 p := by
  obtain ⟨hsound, hforgot⟩ := h.map addr len prot pl
  obtain ⟨hsame, hfile⟩ := mapSharedAnon_same g addr len prot pl
  exact ⟨hsound.same hsame, fun r hlen hr p hp => (hforgot r hlen hr p hp).same hsame hfile⟩

lemma Sound.mapFrames (h : Sound g) {addr : Nat} {frames : List Nat} {prot : Prot} {pl : Pool}
    {r : Outcome} (hr : g.mapFrames addr frames prot pl = some r) :
    Sound r.2.1 ∧ (r.1.isOk = true → frames ≠ [] →
      ∀ q, g.pageRange addr (frames.length * 4096) = .ok q → ∀ p ∈ pagesOf q,
        g.forkPolicy p = none → ¬g.locks.Locked p → Forgotten r.2.1 p) := by
  unfold GuestMemory.mapFrames at hr
  split at hr
  next hnil =>
    cases hr
    exact ⟨h, fun _ hne => absurd hnil hne⟩
  split at hr
  next e he =>
    cases hr
    exact ⟨h, fun hok => by cases hok⟩
  rename_i q hq
  obtain ⟨hbooks, hlocks, hpolicy, hmono, hfile⟩ := mapFramesLoop_spec prot (pagesOf q) h.toBooks
    (pageRange_lt h.aligned hq) hr
  refine ⟨⟨hbooks, hlocks ▸ h.apart, fun p hp => hmono p (h.locked p (hlocks ▸ hp))⟩, ?_⟩
  intro hok _ q' hq' p hp hnone hfree
  rw [hq] at hq'
  cases hq'
  exact ⟨⟨by rw [hpolicy]; exact hnone, hfile hok p (.inl hp)⟩, by rw [hlocks]; exact hfree⟩

/-! ### The other calls -/

lemma protectPages_same (prot : Prot) (ps : List Nat) :
    ∀ (g : GuestMemory) (pl : Pool), SameTables g (protectPages prot ps g pl).2.1 := by
  induction ps with
  | nil => exact fun g pl => .refl g
  | cons q ps ih =>
    intro g pl
    have hset : ∀ v d, SameTables g { g with prot := v, tlbDirty := d } :=
      fun v d => ⟨rfl, rfl, rfl, rfl, rfl⟩
    unfold protectPages
    dsimp only
    split
    · exact .refl g
    split
    · exact (hset (g.prot.set q prot) g.tlbDirty).trans (ih ..)
    · exact (hset (g.prot.set q prot) _).trans (ih ..)

lemma storeRange_same (g : GuestMemory) (r : Nat × Nat) (addr : Nat) (buf : List Byte)
    (pl : Pool) : SameTables g (g.storeRange r addr buf pl).2.1 := by
  unfold storeRange
  split
  · exact .refl g
  · exact ⟨rfl, rfl, rfl, rfl, rfl⟩

lemma write_same (g : GuestMemory) (addr : Nat) (buf : List Byte) (pl : Pool) :
    SameTables g (g.write addr buf pl).2.1 := by
  unfold write
  split
  · exact .refl g
  split
  · exact .refl g
  unfold copyIn
  split
  · exact .refl g
  · exact storeRange_same g _ addr buf pl

lemma writeInit_same (g : GuestMemory) (addr : Nat) (buf : List Byte) (pl : Pool) :
    SameTables g (g.writeInit addr buf pl).2.1 := by
  unfold writeInit
  split
  · exact .refl g
  split
  · exact .refl g
  · exact storeRange_same g _ addr buf pl

lemma foldl_set_policy {entry : Option (BitVec 8)} (ps : List Nat) :
    ∀ (v : PageVec (Option (BitVec 8))) (p : Nat),
      (ps.foldl (fun v p => v.set p entry) v) p ≠ none → v p ≠ none ∨ p ∈ ps := by
  induction ps with
  | nil => exact fun v p h => .inl h
  | cons q ps ih =>
    intro v p h
    rcases ih (v.set q entry) p h with h | h
    · by_cases hpq : p = q
      · exact .inr (hpq ▸ mem_cons_self)
      rw [set_other _ hpq] at h
      exact .inl h
    · exact .inr (mem_cons_of_mem _ h)

lemma Sound.setForkPolicy (h : Sound g) (addr len : Nat) (policy : BitVec 8) :
    Sound (g.setForkPolicy addr len policy).2 := by
  unfold GuestMemory.setForkPolicy
  split
  · exact h
  split
  · exact h
  split
  · exact h
  rename_i r _ hall
  refine ⟨⟨h.aligned, fun p hp => ?_, h.inside, h.count⟩, h.apart, h.locked⟩
  rcases foldl_set_policy _ _ p hp with hp | hp
  · exact h.policy p hp
  have := List.find?_eq_none.mp hall p hp
  simpa using this

lemma Sound.insert (h : Sound g) {first stop : Nat}
    (hmapped : ∀ p, first ≤ p → p < stop → g.mapped p = true) :
    Sound { g with locks := g.locks.insert first stop } := by
  obtain ⟨hapart, -, -, hlocked⟩ := PageLocks.keeps_insert h.apart first stop
  refine ⟨⟨h.aligned, h.policy, h.inside, h.count⟩, hapart, fun p hp => ?_⟩
  rcases (hlocked p).mp hp with hp | hp
  · exact h.locked p hp
  · exact hmapped p hp.1 hp.2

lemma Sound.setLocked (h : Sound g) {addr len : Nat} {locked : Bool}
    (hmapped : locked = true → ∀ r, g.lockSpan addr len = some r → ∀ p, r.1 ≤ p → p < r.2 →
      g.mapped p = true) : Sound (g.setLocked addr len locked) := by
  unfold GuestMemory.setLocked
  split
  · exact h
  split
  · exact h
  rename_i first stop hspan
  cases locked with
  | true => exact h.insert (hmapped rfl _ hspan)
  | false =>
    obtain ⟨hapart, -, -, hunlocked⟩ := PageLocks.keeps_remove h.apart first stop
    exact ⟨⟨h.aligned, h.policy, h.inside, h.count⟩, hapart,
      fun p hp => h.locked p ((hunlocked p).mp hp).1⟩

structure LocksIn (v : Nat → Bool) (st : Option (Nat × Nat) × PageLocks) : Prop where
  run : ∀ r, st.1 = some r → ∀ p, r.1 ≤ p → p < r.2 → v p = true
  apart : Apart st.2.ranges
  locked : ∀ p, st.2.Locked p → v p = true

lemma LocksIn.flush {v : Nat → Bool} {s e : Nat} {locks : PageLocks}
    (h : LocksIn v (some (s, e), locks)) {run : Option (Nat × Nat)}
    (hrun : ∀ r, run = some r → ∀ p, r.1 ≤ p → p < r.2 → v p = true) :
    LocksIn v (run, locks.insert s e) := by
  obtain ⟨hapart, -, -, hlocked⟩ := PageLocks.keeps_insert h.apart s e
  refine ⟨hrun, hapart, fun p hp => ?_⟩
  rcases (hlocked p).mp hp with hp | hp
  · exact h.locked p hp
  · exact h.run (s, e) rfl p hp.1 hp.2

lemma LocksIn.lockRun {v : Nat → Bool} {st : Option (Nat × Nat) × PageLocks}
    (h : LocksIn v st) {q : Nat} (hq : v q = true) : LocksIn v (lockRun st q) := by
  have hone : ∀ r, some (q, q + 1) = some r → ∀ p, r.1 ≤ p → p < r.2 → v p = true := by
    intro r hr p hlo hhi
    cases hr
    rwa [show p = q by omega]
  obtain ⟨run, locks⟩ := st
  cases run with
  | none => exact ⟨hone, h.apart, h.locked⟩
  | some r =>
    obtain ⟨s, e⟩ := r
    unfold GuestMemory.lockRun
    dsimp only
    split
    · refine ⟨fun r hr p hlo hhi => ?_, h.apart, h.locked⟩
      cases hr
      by_cases hpq : p = q
      · rw [hpq]
        exact hq
      · exact h.run (s, e) rfl p hlo (by dsimp only; omega)
    · exact h.flush hone

lemma LocksIn.foldl {v : Nat → Bool} (ps : List Nat) :
    ∀ {st : Option (Nat × Nat) × PageLocks}, LocksIn v st → (∀ p ∈ ps, v p = true) →
      LocksIn v (ps.foldl GuestMemory.lockRun st) := by
  induction ps with
  | nil => exact fun h _ => h
  | cons q ps ih =>
    exact fun h hps => ih (h.lockRun (hps q mem_cons_self))
      fun p hp => hps p (mem_cons_of_mem _ hp)

lemma Sound.lockAll (h : Sound g) (current future : Bool) : Sound (g.lockAll current future) := by
  have hset : ∀ {locks : PageLocks}, Apart locks.ranges →
      (∀ p, locks.Locked p → g.mapped p = true) →
      Sound { g with locks := { locks with future := future } } := fun hapart hlocked =>
    ⟨⟨h.aligned, h.policy, h.inside, h.count⟩, hapart, hlocked⟩
  unfold GuestMemory.lockAll
  split
  · have hall : LocksIn g.mapped
        (((List.range g.npages).filter g.mapped).foldl GuestMemory.lockRun (none, g.locks)) :=
      LocksIn.foldl _ ⟨nofun, h.apart, h.locked⟩ fun p hp => (mem_filter.mp hp).2
    split
    next s e locks heq =>
      rw [heq] at hall
      have hdone : LocksIn g.mapped (none, locks.insert s e) := hall.flush nofun
      exact hset hdone.apart hdone.locked
    next locks heq =>
      rw [heq] at hall
      exact hset hall.apart hall.locked
  · exact hset h.apart h.locked

lemma apart_default : Apart PageLocks.default.ranges := ⟨.nil, nofun⟩

lemma not_locked_default (p : Nat) : ¬PageLocks.default.Locked p := by
  rintro ⟨r, hr, -⟩
  cases hr

lemma protect_same (g : GuestMemory) (addr len : Nat) (prot : Prot) (pl : Pool) :
    SameTables g (g.protect addr len prot pl).2.1 := by
  by_cases hlen : len = 0
  · rw [protect, if_pos hlen]
    exact .refl g
  cases hspan : g.pageSpan addr len with
  | error e =>
    simp only [protect, if_neg hlen, hspan]
    exact .refl g
  | ok r =>
    simp only [protect, if_neg hlen, hspan]
    exact protectPages_same prot _ g pl

lemma markFileBacked_same (g : GuestMemory) (addr len : Nat) :
    SameTables g (g.markFileBacked addr len) := by
  unfold markFileBacked
  split
  · exact .refl g
  · exact ⟨rfl, rfl, rfl, rfl, rfl⟩

/-! ### Fork, exec and exit -/

lemma foldl_decrement (c : Nat → Bool) (ps : List Nat) :
    ∀ n, ps.foldl (fun n p => if c p then n - 1 else n) n = n - (ps.filter c).length := by
  induction ps with
  | nil => exact fun n => rfl
  | cons p ps ih =>
    intro n
    rw [foldl_cons, ih, filter_cons]
    split
    · rw [length_cons]
      omega
    · rfl

lemma Sound.childOf (h : Sound g) (child : AddrSpace) (kstackPa : Nat) :
    Sound (g.childOf child kstackPa) := by
  have hdont : (fun p => if g.forkPolicy p = some forkDont then false else g.mapped p) =
      fun p => if decide (g.forkPolicy p = some forkDont) then false else g.mapped p := by
    funext p
    simp
  refine ⟨⟨h.aligned, fun p hp => ?_, fun p hp => ?_, ?_⟩, apart_default,
    fun p hp => absurd hp (not_locked_default p)⟩
  · have hp : (if g.forkPolicy p = some forkDont then none else g.forkPolicy p) ≠ none := hp
    show (if g.forkPolicy p = some forkDont then false else g.mapped p) = true
    split at hp
    · exact absurd rfl hp
    rename_i hne
    rw [if_neg hne]
    exact h.policy p hp
  · have hp : (if g.forkPolicy p = some forkDont then false else g.mapped p) = true := hp
    split at hp
    · cases hp
    · exact h.inside p hp
  have hgone : (g.policyPages.filter fun p =>
      decide (g.forkPolicy p = some forkDont) && g.mapped p).length =
      live g.npages fun p => decide (g.forkPolicy p = some forkDont) && g.mapped p := by
    unfold policyPages live
    rw [filter_filter]
    refine congrArg List.length (filter_congr fun p _ => ?_)
    by_cases hd : g.forkPolicy p = some forkDont
    · simp [hd]
    · simp [hd]
  have hfold := foldl_decrement
    (fun p => decide (g.forkPolicy p = some forkDont) && g.mapped p) g.policyPages g.mappedCount
  have hdiff := live_diff g.npages g.mapped fun p => decide (g.forkPolicy p = some forkDont)
  have hcount : (g.childOf child kstackPa).mappedCount = g.mappedCount -
      live g.npages fun p => decide (g.forkPolicy p = some forkDont) && g.mapped p := by
    rw [← hgone, ← hfold]
    show g.policyPages.foldl _ _ = _
    simp only [Bool.and_eq_true, decide_eq_true_eq]
  show (g.childOf child kstackPa).mappedCount =
    live g.npages fun p => if g.forkPolicy p = some forkDont then false else g.mapped p
  rw [hcount, hdont, h.count]
  omega

lemma tryFork_cases {pl : Pool} {child : Option GuestMemory} {g' : GuestMemory} {pl' : Pool}
    (h : g.tryFork pl = some (child, g', pl')) :
    SameTables g g' ∧ ∀ c, child = some c → ∃ s k, c = g.childOf s k := by
  unfold tryFork at h
  split at h
  · cases h
    exact ⟨.refl g, nofun⟩
  dsimp only at h
  split at h
  · cases h
  split at h
  · cases h
  cases h
  refine ⟨⟨rfl, rfl, rfl, rfl, rfl⟩, fun c hc => ?_⟩
  cases hc
  exact ⟨_, _, rfl⟩

lemma sound_empty {size : Nat} (h : size % 4096 = 0) (base : Nat) (s : AddrSpace) (k : Nat)
    (locks : PageLocks) (hlocks : Apart locks.ranges) (hfree : ∀ p, ¬locks.Locked p) (dirty : Bool)
    (shared : Bool) :
    Sound { empty base size s k with locks := locks, tlbDirty := dirty, shared := shared } := by
  refine ⟨⟨h, fun p hp => absurd rfl hp, nofun, ?_⟩, hlocks, fun p hp => absurd hp (hfree p)⟩
  show 0 = live _ fun _ => false
  simp [live]

lemma Sound.execReset (h : Sound g) {pl : Pool} {r : GuestMemory × Pool}
    (hr : g.execReset pl = some r) : Sound r.1 := by
  unfold GuestMemory.execReset at hr
  split at hr
  · cases hr
  split at hr
  · cases hr
  cases hr
  exact sound_empty h.aligned _ _ _ PageLocks.default apart_default not_locked_default ..

lemma Sound.retire (h : Sound g) (hfree : ∀ p, ¬g.locks.Locked p) (pl : Pool) :
    Sound (g.retire pl).1 :=
  sound_empty h.aligned _ _ _ g.locks h.apart hfree ..

lemma Sound.newSplit {ceiling : Nat} {image : Nat → Byte} {base vsize physBytes : Nat}
    {r : GuestMemory × Pool} (h : newSplit ceiling image base vsize physBytes = some r) :
    Sound r.1 := by
  have haligned : u64 (nextMultipleOf (max vsize 4096) 16384) % 4096 = 0 := by
    unfold u64 nextMultipleOf
    omega
  unfold GuestMemory.newSplit at h
  split at h
  · cases h
  dsimp only at h
  split at h
  · cases h
  split at h
  · cases h
  split at h
  · cases h
  cases h
  exact sound_empty haligned _ _ _ _ apart_default not_locked_default ..

end GuestMemory

/-! ### Runs -/

open GuestMemory

def pagesIn : Except MemError (Nat × Nat) → List Nat
  | .ok r => pagesOf r
  | .error _ => []

/-- The pages whose mapping the call replaces or takes away. -/
def Call.pages (g : GuestMemory) : Call → List Nat
  | .map addr len _ | .mapSharedAnon addr len _ | .unmap addr len =>
    if len = 0 then [] else pagesIn (g.pageSpan addr len)
  | .mapFrames addr frames _ =>
    if frames = [] then [] else pagesIn (g.pageRange addr (frames.length * 4096))
  | _ => []

/-- `map_frames` finds no policy or lock on its pages, and only mapped pages are locked. -/
def Call.Clean (g : GuestMemory) : Call → Prop
  | .mapFrames addr frames prot => ∀ p ∈ (Call.mapFrames addr frames prot).pages g,
      g.forkPolicy p = none ∧ ¬g.locks.Locked p
  | .setLocked addr len locked => locked = true → ∀ r, g.lockSpan addr len = some r →
      ∀ p, r.1 ≤ p → p < r.2 → g.mapped p = true
  | _ => True

lemma mem_pagesIn {x : Except MemError (Nat × Nat)} {p : Nat} (h : p ∈ pagesIn x) :
    ∃ r, x = .ok r ∧ p ∈ pagesOf r := by
  cases x with
  | error e => cases h
  | ok r => exact ⟨r, rfl, h⟩

lemma mem_pages_if {c : Prop} [Decidable c] {x : Except MemError (Nat × Nat)} {p : Nat}
    (h : p ∈ if c then [] else pagesIn x) : ¬c ∧ ∃ r, x = .ok r ∧ p ∈ pagesOf r := by
  split at h
  · cases h
  rename_i hc
  exact ⟨hc, mem_pagesIn h⟩

lemma forgotten_of_span {g g' : GuestMemory} {addr len : Nat}
    (h : ∀ r, len ≠ 0 → g.pageSpan addr len = .ok r → ∀ p ∈ pagesOf r, Forgotten g' p) :
    ∀ p ∈ if len = 0 then [] else pagesIn (g.pageSpan addr len), Forgotten g' p := by
  intro p hp
  obtain ⟨hlen, r, hr, hp⟩ := mem_pages_if hp
  exact h r hlen hr p hp

lemma call_sound {g : GuestMemory} {c : Call} {pl : Pool} {d : Done} (h : Sound g)
    (hc : c.Clean g) (hd : c.run g pl = some d) :
    Sound d.2.1 ∧ (d.1 = true → ∀ p ∈ c.pages g, Forgotten d.2.1 p) := by
  cases c with
  | map addr len prot =>
    obtain ⟨hsound, hforgot⟩ := h.map addr len prot pl
    cases hd
    exact ⟨hsound, fun _ => forgotten_of_span hforgot⟩
  | mapSharedAnon addr len prot =>
    obtain ⟨hsound, hforgot⟩ := h.mapSharedAnon addr len prot pl
    cases hd
    exact ⟨hsound, fun _ => forgotten_of_span hforgot⟩
  | unmap addr len =>
    obtain ⟨hsound, hforgot⟩ := h.unmap addr len pl
    cases hd
    exact ⟨hsound, fun _ => forgotten_of_span hforgot⟩
  | mapFrames addr frames prot =>
    obtain ⟨r, hr, rfl⟩ := Option.map_eq_some_iff.mp hd
    obtain ⟨hsound, hforgot⟩ := h.mapFrames hr
    refine ⟨hsound, fun hok p hp => ?_⟩
    obtain ⟨hpolicy, hlock⟩ := hc p hp
    obtain ⟨hne, q, hq, hp⟩ := mem_pages_if hp
    exact hforgot hok hne q hq p hp hpolicy hlock
  | protect addr len prot =>
    cases hd
    exact ⟨h.same (protect_same g addr len prot pl), nofun⟩
  | write addr buf =>
    cases hd
    exact ⟨h.same (write_same g addr buf pl), nofun⟩
  | writeInit addr buf =>
    cases hd
    exact ⟨h.same (writeInit_same g addr buf pl), nofun⟩
  | demandFault addr =>
    cases hd
    exact ⟨h, nofun⟩
  | cowFault addr isWrite =>
    cases hd
    exact ⟨h, nofun⟩
  | setForkPolicy addr len policy =>
    cases hd
    exact ⟨h.setForkPolicy addr len policy, nofun⟩
  | markFileBacked addr len =>
    cases hd
    exact ⟨h.same (markFileBacked_same g addr len), nofun⟩
  | setLocked addr len locked =>
    cases hd
    exact ⟨h.setLocked hc, nofun⟩
  | lockAll current future =>
    cases hd
    exact ⟨h.lockAll current future, nofun⟩
  | unlockAll =>
    cases hd
    exact ⟨⟨⟨h.aligned, h.policy, h.inside, h.count⟩, apart_default,
      fun p hp => absurd hp (not_locked_default p)⟩, nofun⟩

namespace Sys

def Clean (s : Sys) : Op → Prop
  | .call i c => ∀ g, s.spaces[i]? = some g → c.Clean g
  | .retire i => ∀ g, s.spaces[i]? = some g → ∀ p, ¬g.locks.Locked p
  | _ => True

def TablesSound (s : Sys) : Prop := ∀ g ∈ s.spaces, Sound g

lemma TablesSound.set {s : Sys} (h : s.TablesSound) (i : Nat) {g : GuestMemory} (hg : Sound g) :
    ∀ g' ∈ s.spaces.set i g, Sound g' := by
  intro g' hg'
  rcases mem_or_eq_of_mem_set hg' with hg' | rfl
  · exact h g' hg'
  · exact hg

lemma TablesSound.step {s s' : Sys} {op : Op} {b : Bool} (h : s.TablesSound) (hc : s.Clean op)
    (hs : s.step op = some (b, s')) : s'.TablesSound := by
  cases op with
  | call i c =>
    simp only [Sys.step] at hs
    split at hs
    · cases hs
    rename_i g hg
    obtain ⟨d, hd, heq⟩ := Option.map_eq_some_iff.mp hs
    cases heq
    have hsound := h g (mem_of_getElem? hg)
    exact h.set i (call_sound hsound (hc g hg) hd).1
  | tryFork i =>
    simp only [Sys.step] at hs
    split at hs
    · cases hs
    rename_i g hg
    have hsound := h g (mem_of_getElem? hg)
    split at hs
    · cases hs
    next hfork =>
      cases hs
      exact h.set i (hsound.same (tryFork_cases hfork).1)
    rename_i child g' pl' hfork
    cases hs
    obtain ⟨hsame, hchild⟩ := tryFork_cases hfork
    obtain ⟨a, k, rfl⟩ := hchild child rfl
    intro g'' hg''
    rcases mem_append.mp hg'' with hg'' | hg''
    · exact h.set i (hsound.same hsame) g'' hg''
    rw [mem_singleton.mp hg'']
    exact hsound.childOf a k
  | execReset i =>
    simp only [Sys.step] at hs
    split at hs
    · cases hs
    rename_i g hg
    obtain ⟨r, hr, heq⟩ := Option.map_eq_some_iff.mp hs
    cases heq
    exact h.set i ((h g (mem_of_getElem? hg)).execReset hr)
  | retire i =>
    simp only [Sys.step] at hs
    split at hs
    · cases hs
    rename_i g hg
    cases hs
    exact h.set i ((h g (mem_of_getElem? hg)).retire (hc g hg) s.pool)
  | allocFrames n =>
    simp only [Sys.step] at hs
    split at hs
    · cases hs
      exact h
    · cases hs
      exact h
  | releaseFrames frames =>
    cases hs
    exact h

lemma TablesSound.of_boot {ceiling : Nat} {image : Nat → Byte} {base vsize physBytes : Nat}
    {s : Sys} (h : boot ceiling image base vsize physBytes = some s) : s.TablesSound := by
  obtain ⟨r, hr, rfl⟩ := Option.map_eq_some_iff.mp h
  intro g hg
  rw [mem_singleton.mp hg]
  exact Sound.newSplit hr

lemma TablesSound.run {s s' : Sys} (h : s.TablesSound)
    (hrun : Relation.ReflTransGen (Next Clean) s s') : s'.TablesSound := by
  induction hrun with
  | refl => exact h
  | tail _ hlast ih =>
    obtain ⟨op, b, hop, hs⟩ := hlast
    exact ih.step hop hs

/-- **What a call replaces is forgotten.** In every state of a run of clean steps, locked pages and
those with a fork policy are mapped and the count is right; and a clean call that succeeds leaves
nothing of what it replaced. -/
theorem replaced_forgotten {ceiling : Nat} {image : Nat → Byte} {base vsize physBytes : Nat}
    {s₀ s : Sys} (hboot : boot ceiling image base vsize physBytes = some s₀)
    (hrun : Relation.ReflTransGen (Next Clean) s₀ s) :
    (∀ g ∈ s.spaces, (∀ p, g.locks.Locked p → g.mapped p = true) ∧
      (∀ p, g.forkPolicy p ≠ none → g.mapped p = true) ∧
      (∀ p, g.mapped p = true → p < g.npages) ∧ g.mappedCount = live g.npages g.mapped) ∧
    ∀ (i : Nat) (c : Call) g g' pl', s.spaces[i]? = some g → c.Clean g →
      c.run g s.pool = some (true, g', pl') →
      ∀ p ∈ c.pages g, g'.forkPolicy p = none ∧ g'.fileBacked p = false ∧ ¬g'.locks.Locked p := by
  have hsound := (TablesSound.of_boot hboot).run hrun
  refine ⟨fun g hg => ?_, fun i c g g' pl' hg hc hd p hp => ?_⟩
  · have h := hsound g hg
    exact ⟨h.locked, h.policy, h.inside, h.count⟩
  · have hforgot := (call_sound (hsound g (List.mem_of_getElem? hg)) hc hd).2 rfl p hp
    exact ⟨hforgot.1.1, hforgot.1.2, hforgot.2⟩

theorem replaced_forgotten_unmap : ∃ s₀ s g g' pl',
    boot (2 ^ 30) (fun _ => 0) 65536 65536 (2 ^ 21) = some s₀ ∧
    steps [.call 0 (.map 65536 8192 .rw), .call 0 (.setForkPolicy 65536 4096 forkDont),
      .call 0 (.lockAll true false)] s₀ = some s ∧
    s.spaces[0]? = some g ∧ (g.forkPolicy 0 = some forkDont ∧ g.locks.Locked 0) ∧
    (Call.unmap 65536 4096).run g s.pool = some (true, g', pl') ∧
    g'.forkPolicy 0 = none ∧ g'.fileBacked 0 = false ∧ ¬g'.locks.Locked 0 := by
  obtain ⟨s₀, s, hboot, hsteps, h⟩ := exists_of_steps
    (boot (2 ^ 30) (fun _ => 0) 65536 65536 (2 ^ 21)) [.call 0 (.map 65536 8192 .rw),
      .call 0 (.setForkPolicy 65536 4096 forkDont), .call 0 (.lockAll true false)]
    (P := fun s : Sys => s.spaces[0]?.any fun g : GuestMemory =>
      decide (g.forkPolicy 0 = some forkDont ∧ g.locks.Locked 0) &&
        decide (0 ∈ (Call.unmap 65536 4096).pages g) &&
        ((Call.unmap 65536 4096).run g s.pool).any fun d : Done => d.1)
    (by decide +kernel)
  obtain ⟨g, hg, h⟩ := (Option.any_eq_true ..).mp h
  simp only [Bool.and_eq_true, decide_eq_true_eq] at h
  obtain ⟨⟨hmarks, hpage⟩, hrun⟩ := h
  obtain ⟨⟨b, g', pl'⟩, hd, hb⟩ := (Option.any_eq_true ..).mp hrun
  obtain rfl : b = true := hb
  have hreach := reach_of_steps Clean _ (fun op hop s => by
    fin_cases hop <;> exact fun _ _ => trivial) hsteps
  exact ⟨s₀, s, g, g', pl', hboot, hsteps, hg, hmarks, hd,
    (replaced_forgotten hboot hreach).2 0 (.unmap 65536 4096) g g' pl' hg trivial hd 0 hpage⟩

/-- `map_frames` leaves a page's fork policy and lock, and `retire` leaves unmapped pages locked.
-/
theorem stale_marks : (∃ s₀ s, boot (2 ^ 30) (fun _ => 0) 65536 65536 (2 ^ 21) = some s₀ ∧
      steps [.call 0 (.map 65536 8192 .rw), .call 0 (.setForkPolicy 65536 4096 forkDont),
        .call 0 (.setLocked 65536 4096 true), .allocFrames 1,
        .call 0 (.mapFrames 65536 [53248] .rw)] s₀ = some s ∧
      ∃ g ∈ s.spaces, 0 ∈ (Call.mapFrames 65536 [53248] .rw).pages g ∧
        g.forkPolicy 0 = some forkDont ∧ g.locks.Locked 0) ∧
    ∃ s₀ s, boot (2 ^ 30) (fun _ => 0) 65536 65536 (2 ^ 21) = some s₀ ∧
      steps [.call 0 (.map 65536 8192 .rw), .call 0 (.setLocked 65536 4096 true), .retire 0] s₀ =
        some s ∧ ∃ g ∈ s.spaces, g.locks.Locked 0 ∧ g.mapped 0 = false := by
  exact ⟨exists_of_steps _ _ (by decide +kernel), exists_of_steps _ _ (by decide +kernel)⟩

end Sys

end NixVm
