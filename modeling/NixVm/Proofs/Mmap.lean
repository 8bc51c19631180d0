/-
What the calls that hand out addresses deliver.

A call that maps pages and succeeds has mapped every one of them with the protection asked for, and
its range does not run over the end of the 64 bits (`*_delivers`). That is what the arena needs to
know of a range claimed at an address the caller chose.
-/
import NixVm.Kernel.Mmap
import NixVm.Proofs.Act
import NixVm.Proofs.Arena

namespace NixVm

open GuestMemory List Option

open Ranges (Range Covered In)

namespace GuestMemory

variable {g g' : GuestMemory} {pl : Pool} {addr len : Nat} {prot : Prot} {r : Nat × Nat}

/-- Every byte of the range is mapped with the protection. -/
def Delivered (g : GuestMemory) (addr len : Nat) (prot : Prot) : Prop :=
  ∀ x, addr ≤ x → x < addr + len → g.pageProt x = some prot

lemma pageProt_eq {x p : Nat} (hx : g.pageIndex x = some p) (hm : g.mapped p = true)
    (hp : g.prot p = prot) : g.pageProt x = some prot := by
  unfold pageProt
  rw [hx, bind_some, if_pos hm, hp]

lemma pageRange_covers (hlen : 0 < len) (h : g.pageRange addr len = .ok r) :
    addr + len < 2 ^ 64 ∧ ∀ x, addr ≤ x → x < addr + len →
      ∃ p ∈ pagesOf r, g.pageIndex x = some p := by
  have ⟨hfirst, hlast⟩ := pageRange_eq h
  obtain ⟨hlo, -, hr1⟩ := pageIndex_eq hfirst
  obtain ⟨-, hhi, hr2⟩ := pageIndex_eq hlast
  have hlim : g.limit < 2 ^ 64 := Nat.mod_lt _ (by decide)
  refine ⟨by omega, fun x hx hx' => ⟨(x - g.base) / 4096, mem_pagesOf.mpr ?_, ?_⟩⟩
  · omega
  unfold pageIndex
  rw [if_neg (by omega)]

lemma pageSpan_covers (haddr : addr < 2 ^ 64) (hpos : 0 < len) (hlen : len < 2 ^ 64)
    (hwhole : len % 4096 = 0) (hal : addr % 4096 = 0 ∨ addr + len + 4096 ≤ 2 ^ 64)
    (h : g.pageSpan addr len = .ok r) : addr + len < 2 ^ 64 ∧ ∀ x, addr ≤ x → x < addr + len →
      ∃ p ∈ pagesOf r, g.pageIndex x = some p := by
  unfold pageSpan at h
  dsimp only at h
  generalize hn : u64 (roundUp (u64 (addr + len)) 4096 + 2 ^ 64 - pageOf addr) = n at h
  have hspan : pageOf addr + n ≥ addr + len ∧ 0 < n := by
    unfold u64 roundUp u64 at hn
    unfold pageOf at hn ⊢
    omega
  have ⟨hlt, hcov⟩ := pageRange_covers hspan.2 h
  refine ⟨by omega, fun x hx hx' => hcov x ?_ (by omega)⟩
  unfold pageOf
  omega

/-- What `pageProt` reads. -/
structure SameProt (g g' : GuestMemory) : Prop where
  base : g'.base = g.base
  size : g'.size = g.size
  mapped : g'.mapped = g.mapped
  prot : g'.prot = g.prot

lemma SameProt.refl (g : GuestMemory) : SameProt g g := ⟨rfl, rfl, rfl, rfl⟩

lemma SameProt.trans {g'' : GuestMemory} (h : SameProt g g') (h' : SameProt g' g'') :
    SameProt g g'' :=
  ⟨h'.base.trans h.base, h'.size.trans h.size, h'.mapped.trans h.mapped, h'.prot.trans h.prot⟩

lemma pageIndex_congr (hb : g'.base = g.base) (hs : g'.size = g.size) (x : Nat) :
    g'.pageIndex x = g.pageIndex x := by
  unfold pageIndex limit
  rw [hb, hs]

lemma SameProt.pageProt (h : SameProt g g') (x : Nat) : g'.pageProt x = g.pageProt x := by
  unfold GuestMemory.pageProt
  rw [pageIndex_congr h.base h.size, h.mapped, h.prot]

lemma Delivered.same (h : g.Delivered addr len prot) (hs : SameProt g g') :
    g'.Delivered addr len prot := fun x hx hx' => (hs.pageProt x).trans (h x hx hx')

lemma writeInit_sameProt (g : GuestMemory) (addr : Nat) (buf : List Byte) (pl : Pool) :
    SameProt g (g.writeInit addr buf pl).2.1 := by
  unfold writeInit
  split
  · exact .refl g
  split
  · exact .refl g
  unfold storeRange
  split
  · exact .refl g
  · exact ⟨rfl, rfl, rfl, rfl⟩

lemma backShared_sameProt (ps : List Nat) : ∀ (g : GuestMemory) (pl : Pool),
    SameProt g (backShared ps g pl).2.1 := by
  induction ps with
  | nil => exact fun g _ => .refl g
  | cons p ps ih =>
    intro g pl
    have hset : SameProt g { g with sharedAnon := g.sharedAnon.set p true } := ⟨rfl, rfl, rfl, rfl⟩
    unfold backShared
    dsimp only
    split
    · exact hset
    · exact hset.trans (ih ..)

lemma map_geometry (g : GuestMemory) (addr len : Nat) (prot : Prot) (pl : Pool) :
    (g.map addr len prot pl).2.1.base = g.base ∧ (g.map addr len prot pl).2.1.size = g.size := by
  have hfold : ∀ (ps : List Nat) (st : GuestMemory × Pool),
      (ps.foldl (mapPage prot) st).1.base = st.1.base ∧
        (ps.foldl (mapPage prot) st).1.size = st.1.size := by
    intro ps
    induction ps with
    | nil => exact fun _ => ⟨rfl, rfl⟩
    | cons p ps ih => exact fun st => ih (mapPage prot st p)
  by_cases hlen : len = 0
  · rw [map, if_pos hlen]
    exact ⟨rfl, rfl⟩
  cases hspan : g.pageSpan addr len with
  | error e =>
    simp only [map, if_neg hlen, hspan]
    exact ⟨trivial, trivial⟩
  | ok r =>
    rw [map_ok hlen hspan]
    exact hfold _ (g, pl)

lemma foldl_mapPage_other (prot : Prot) (ps : List Nat) : ∀ {g : GuestMemory} {pl : Pool}
    {p : Nat}, p ∉ ps → (ps.foldl (mapPage prot) (g, pl)).1.mapped p = g.mapped p := by
  induction ps with
  | nil => exact fun _ => rfl
  | cons q ps ih =>
    intro g pl p hp
    rw [mem_cons, not_or] at hp
    refine (@ih (mapPage prot (g, pl) q).1 (mapPage prot (g, pl) q).2 p hp.2).trans ?_
    exact PageVec.set_other _ hp.1 _

lemma foldl_unmapPage_other (ps : List Nat) : ∀ (st : GuestMemory × Pool),
    (ps.foldl unmapPage st).1.base = st.1.base ∧ (ps.foldl unmapPage st).1.size = st.1.size ∧
      ∀ p, p ∉ ps → (ps.foldl unmapPage st).1.mapped p = st.1.mapped p ∧
        (ps.foldl unmapPage st).1.prot p = st.1.prot p := by
  induction ps with
  | nil => exact fun _ => ⟨rfl, rfl, fun _ _ => ⟨rfl, rfl⟩⟩
  | cons q ps ih =>
    intro st
    have ⟨hb, hs, hrest⟩ := ih (unmapPage st q)
    have hone : (unmapPage st q).1.base = st.1.base ∧ (unmapPage st q).1.size = st.1.size ∧
        ∀ p, p ≠ q → (unmapPage st q).1.mapped p = st.1.mapped p ∧
          (unmapPage st q).1.prot p = st.1.prot p := by
      exact ⟨rfl, rfl, fun p hp => ⟨PageVec.set_other _ hp _, PageVec.set_other _ hp _⟩⟩
    refine ⟨hb.trans hone.1, hs.trans hone.2.1, fun p hp => ?_⟩
    rw [mem_cons, not_or] at hp
    have h1 := hone.2.2 p hp.1
    have h2 := hrest p hp.2
    exact ⟨h2.1.trans h1.1, h2.2.trans h1.2⟩

lemma map_delivers (haddr : addr < 2 ^ 64) (hpos : 0 < len) (hlen : len < 2 ^ 64)
    (hwhole : len % 4096 = 0) (hal : addr % 4096 = 0 ∨ addr + len + 4096 ≤ 2 ^ 64)
    (hok : (g.map addr len prot pl).1 = .ok ()) :
    addr + len < 2 ^ 64 ∧ (g.map addr len prot pl).2.1.Delivered addr len prot := by
  cases hspan : g.pageSpan addr len with
  | error e =>
    simp only [map, if_neg (ne_of_gt hpos), hspan] at hok
    cases hok
  | ok r =>
    have ⟨hlt, hcov⟩ := pageSpan_covers haddr hpos hlen hwhole hal hspan
    refine ⟨hlt, fun x hx hx' => ?_⟩
    have ⟨p, hp, hidx⟩ := hcov x hx hx'
    obtain ⟨hm, hprot⟩ : (g.map addr len prot pl).2.1.mapped p = true ∧
        (g.map addr len prot pl).2.1.prot p = prot := map_pages (ne_of_gt hpos) hspan hp
    have ⟨hb, hs⟩ := map_geometry g addr len prot pl
    exact pageProt_eq ((pageIndex_congr hb hs x).trans hidx) hm hprot

lemma backed_ok (span : GuestMemory → Nat → Nat → Except MemError (Nat × Nat)) (addr len : Nat)
    {Q : GuestMemory → Prop} (hQ : ∀ {g g'}, Q g → SameProt g g' → Q g') (st : Outcome) :
    (st.1 = .ok () → Q st.2.1) → let st' : Outcome := match st with
      | (.error e, g, pl) => (.error e, g, pl)
      | (.ok _, g, pl) =>
        match span g addr len with
        | .error e => (.error e, g, pl)
        | .ok r => backShared (pagesOf r) g pl
    st'.1 = .ok () → Q st'.2.1 := by
  intro h
  obtain ⟨res, g', pl'⟩ := st
  cases res with
  | error e => exact h
  | ok u =>
    dsimp only
    cases span g' addr len with
    | error e => exact nofun
    | ok r => exact fun _ => hQ (h rfl) (backShared_sameProt ..)

/-- What `map` gives and protections decide, `map_shared_anon` gives too. -/
lemma mapSharedAnon_ok {Q : GuestMemory → Prop} (hQ : ∀ {g g'}, Q g → SameProt g g' → Q g')
    (hmap : (g.map addr len prot pl).1 = .ok () → Q (g.map addr len prot pl).2.1)
    (hok : (g.mapSharedAnon addr len prot pl).1 = .ok ()) :
    Q (g.mapSharedAnon addr len prot pl).2.1 := by
  revert hok hmap
  unfold mapSharedAnon
  generalize g.map addr len prot pl = st
  exact fun hmap => backed_ok pageSpan addr len hQ st hmap

lemma mapSharedAnon_delivers (haddr : addr < 2 ^ 64) (hpos : 0 < len) (hlen : len < 2 ^ 64)
    (hwhole : len % 4096 = 0) (hal : addr % 4096 = 0 ∨ addr + len + 4096 ≤ 2 ^ 64) :
    (g.mapSharedAnon addr len prot pl).1 = .ok () →
    addr + len < 2 ^ 64 ∧ (g.mapSharedAnon addr len prot pl).2.1.Delivered addr len prot :=
  mapSharedAnon_ok (Q := fun g => addr + len < 2 ^ 64 ∧ g.Delivered addr len prot)
    (fun hd hs => ⟨hd.1, hd.2.same hs⟩) (map_delivers haddr hpos hlen hwhole hal)

lemma map_keeps {x : Nat} (h : (g.pageProt x).isSome) :
    ((g.map addr len prot pl).2.1.pageProt x).isSome := by
  have ⟨hb, hs⟩ := map_geometry g addr len prot pl
  unfold pageProt at h ⊢
  rw [pageIndex_congr hb hs]
  cases hx : g.pageIndex x with
  | none =>
    rw [hx] at h
    cases h
  | some p =>
    have hm : g.mapped p = true := by
      rw [hx] at h
      by_contra hm
      simp [hm] at h
    have hmapped : (g.map addr len prot pl).2.1.mapped p = true := by
      by_cases hlen : len = 0
      · rw [map, if_pos hlen]
        exact hm
      cases hspan : g.pageSpan addr len with
      | error e =>
        simp only [map, if_neg hlen, hspan]
        exact hm
      | ok r =>
        by_cases hp : p ∈ pagesOf r
        · exact (map_pages hlen hspan hp).1
        rw [map_ok hlen hspan]
        exact (foldl_mapPage_other prot _ hp).trans hm
    rw [bind_some, if_pos hmapped]
    rfl

lemma unmap_other (g : GuestMemory) (addr len : Nat) (pl : Pool) :
    (g.unmap addr len pl).2.1.base = g.base ∧ (g.unmap addr len pl).2.1.size = g.size ∧
      ∀ p, (∀ r, g.pageSpan addr len = .ok r → p ∉ pagesOf r) →
        (g.unmap addr len pl).2.1.mapped p = g.mapped p ∧
        (g.unmap addr len pl).2.1.prot p = g.prot p := by
  by_cases hlen : len = 0
  · rw [unmap, if_pos hlen]
    exact ⟨rfl, rfl, fun _ _ => ⟨rfl, rfl⟩⟩
  cases hspan : g.pageSpan addr len with
  | error e =>
    simp only [unmap, if_neg hlen, hspan]
    exact ⟨trivial, trivial, fun _ _ => ⟨trivial, trivial⟩⟩
  | ok r =>
    rw [unmap_ok hlen hspan]
    have ⟨hb, hs, hother⟩ := foldl_unmapPage_other (pagesOf r) (g, pl)
    exact ⟨hb, hs, fun p hp => hother p (hp r rfl)⟩

lemma unmap_keeps {x : Nat} (hbase : g.base % 4096 = 0) (hal : addr % 4096 = 0) (hx : x < addr)
    (h : (g.pageProt x).isSome) : ((g.unmap addr len pl).2.1.pageProt x).isSome := by
  have ⟨hb, hs, hother⟩ := unmap_other g addr len pl
  unfold pageProt at h ⊢
  rw [pageIndex_congr hb hs]
  cases hp : g.pageIndex x with
  | none =>
    rw [hp] at h
    cases h
  | some p =>
    have hout : ∀ r, g.pageSpan addr len = .ok r → p ∉ pagesOf r := by
      intro r hspan
      obtain ⟨hlo, -, rfl⟩ := pageIndex_eq hp
      have hfirst : g.pageIndex (pageOf addr) = some r.1 := (pageRange_eq hspan).1
      obtain ⟨hlo', -, hr⟩ := pageIndex_eq hfirst
      unfold pageOf at *
      rw [mem_pagesOf]
      omega
    rw [hp] at h
    simp only [bind_some] at h ⊢
    rw [(hother p hout).1, (hother p hout).2]
    exact h

lemma mapFramesLoop_pages (ps : List Nat) : ∀ {frames : List Nat} {g g' : GuestMemory}
    {pl pl' : Pool}, mapFramesLoop prot ps frames g pl = some (.ok (), g', pl') →
    g'.base = g.base ∧ g'.size = g.size ∧ ∀ p, p ∈ ps ∨ (g.mapped p = true ∧ g.prot p = prot) →
        g'.mapped p = true ∧ g'.prot p = prot := by
  induction ps with
  | nil =>
    intro frames g g' pl pl' h
    cases h
    exact ⟨rfl, rfl, fun p hp => hp.resolve_left not_mem_nil⟩
  | cons q ps ih =>
    intro frames g g' pl pl' h
    cases frames with
    | nil => cases h
    | cons f frames =>
      unfold mapFramesLoop at h
      dsimp only at h
      split at h
      · cases h
      have ⟨hb, hs, hall⟩ := ih h
      refine ⟨hb, hs, fun p hp => hall p ?_⟩
      by_cases hpq : p = q
      · subst hpq
        exact .inr ⟨PageVec.set_self .., PageVec.set_self ..⟩
      rcases hp with hp | hp
      · exact .inl ((mem_cons.mp hp).resolve_left hpq)
      exact .inr ⟨(PageVec.set_other _ hpq _).trans hp.1, (PageVec.set_other _ hpq _).trans hp.2⟩

lemma mapFrames_delivers {frames : List Nat} {o : Outcome} (hne : frames ≠ [])
    (h : g.mapFrames addr frames prot pl = some o) (hok : o.1 = .ok ()) :
    addr + frames.length * 4096 < 2 ^ 64 ∧ o.2.1.Delivered addr (frames.length * 4096) prot := by
  obtain ⟨res, g', pl'⟩ := o
  cases hok
  unfold mapFrames at h
  rw [if_neg hne] at h
  have hpos : 0 < frames.length * 4096 := Nat.mul_pos (length_pos_iff.mpr hne) (by decide)
  cases hr : g.pageRange addr (frames.length * 4096) with
  | error e =>
    simp only [hr] at h
    cases h
  | ok r =>
    simp only [hr] at h
    have ⟨hlt, hcov⟩ := pageRange_covers hpos hr
    have ⟨hb, hs, hall⟩ := mapFramesLoop_pages _ h
    refine ⟨hlt, fun x hx hx' => ?_⟩
    have ⟨p, hp, hidx⟩ := hcov x hx hx'
    have ⟨hm, hprot⟩ := hall p (.inl hp)
    exact pageProt_eq ((pageIndex_congr hb hs x).trans hidx) hm hprot

end GuestMemory

namespace Space

variable {s s' : Space} {base len : Nat}

/-! ### Mapping what was placed -/

/-- Work on the memory leaves the addresses alone. -/
structure SameAddresses (s s' : Space) : Prop where
  arena : s'.arena = s.arena
  out : s'.out = s.out
  heap : s'.heap = s.heap

lemma SameAddresses.refl (s : Space) : SameAddresses s s := ⟨rfl, rfl, rfl⟩

lemma SameAddresses.after (s : Space) (o : GuestMemory.Outcome) : SameAddresses s (s.after o) :=
  ⟨rfl, rfl, rfl⟩

lemma SameAddresses.trans {s'' : Space} (h : SameAddresses s s') (h' : SameAddresses s' s'') :
    SameAddresses s s'' :=
  ⟨h'.arena.trans h.arena, h'.out.trans h.out, h'.heap.trans h.heap⟩

lemma install_addresses {a : MmapArgs} {env : MmapEnv} {file : Bool} {e : Option Errno}
    (h : s.install a env file base len = some (e, s')) : SameAddresses s s' := by
  unfold install at h
  split at h
  · split at h
    · cases h
      exact ⟨rfl, rfl, rfl⟩
    obtain ⟨o, -, ho⟩ := map_eq_some_iff.mp h
    cases ho
    exact .after s o
  dsimp only at h
  split at h
  · cases h
    exact .after s _
  split at h
  · split at h
    · cases h
      exact .after s _
    · cases h
      exact .after s _
  · cases h
    exact .after s _

/-- What is installed, if protections decide it: pages of the cache, or what `map` gives. -/
lemma install_ok {a : MmapArgs} {env : MmapEnv} {file : Bool} {Q : GuestMemory → Prop}
    (hQ : ∀ {g g'}, Q g → SameProt g g' → Q g')
    (hframes : ∀ frames pl o, frames.length = len / 4096 →
      s.mem.mapFrames base frames a.wanted pl = some o → o.1 = .ok () → Q o.2.1)
    (hmap : (s.mem.map base len a.wanted s.pool).1 = .ok () →
      Q (s.mem.map base len a.wanted s.pool).2.1)
    (h : s.install a env file base len = some (none, s')) : Q s'.mem := by
  unfold install at h
  split at h
  · have hcount := env.frames_length (len / 4096) s.pool
    generalize env.frames (len / 4096) s.pool = answer at h hcount
    obtain ⟨res, pl⟩ := answer
    cases res with
    | error e => cases h
    | ok frames =>
      have ⟨⟨res, g', pl'⟩, ho, hres⟩ := map_eq_some_iff.mp h
      cases res with
      | error e => cases hres
      | ok u =>
        cases hres
        exact hframes frames pl _ (hcount frames rfl) ho rfl
  generalize ho : (if !file && a.shared && a.wanted.contains .write then
      s.mem.mapSharedAnon base len a.wanted s.pool
    else s.mem.map base len a.wanted s.pool) = o at h
  have hpages : o.1 = .ok () → Q o.2.1 := by
    rw [← ho]
    split
    · exact mapSharedAnon_ok hQ hmap
    · exact hmap
  obtain ⟨res, g', pl'⟩ := o
  cases res with
  | error e => cases h
  | ok u =>
    have hpages := hpages rfl
    dsimp only at h
    split at h
    · -- filling the pages from a file changes neither what is mapped nor how
      have hsame := writeInit_sameProt g' base (env.data len) pl'
      generalize g'.writeInit base (env.data len) pl' = w at h hsame
      obtain ⟨res, g2, pl2⟩ := w
      cases res with
      | error e => cases h
      | ok u =>
        cases h
        exact hQ hpages hsame
    · cases h
      exact hpages

lemma install_delivers {a : MmapArgs} {env : MmapEnv} {file : Bool}
    (h : s.install a env file base len = some (none, s')) (hbase : base < 2 ^ 64)
    (hpos : 0 < len) (hlen : len < 2 ^ 64) (hwhole : len % 4096 = 0)
    (hal : base % 4096 = 0 ∨ base + len + 4096 ≤ 2 ^ 64) :
    base + len < 2 ^ 64 ∧ s'.mem.Delivered base len a.wanted := by
  refine install_ok (Q := fun g => base + len < 2 ^ 64 ∧ g.Delivered base len a.wanted)
    (fun hd hs => ⟨hd.1, hd.2.same hs⟩) (fun frames pl o hcount ho hok => ?_)
    (map_delivers hbase hpos hlen hwhole hal) h
  have hlength : frames.length * 4096 = len := by omega
  have hne : frames ≠ [] := by
    rintro rfl
    rw [length_nil] at hlength
    omega
  have hdel := mapFrames_delivers hne ho hok
  rwa [hlength] at hdel

/-- With a length of nothing nothing is mapped. -/
lemma install_nothing {a : MmapArgs} {env : MmapEnv} {file : Bool} (hlen : len = 0)
    (h : s.install a env file base len = some (none, s')) : SameProt s.mem s'.mem := by
  refine install_ok (Q := SameProt s.mem) .trans (fun frames pl o hcount ho _ => ?_) (fun _ => ?_) h
  · have hnil : frames = [] := length_eq_zero_iff.mp (by omega)
    rw [mapFrames, if_pos hnil] at ho
    cases ho
    exact .refl _
  · rw [GuestMemory.map, if_pos hlen]
    exact .refl _

/-! ### Moving a mapping -/

lemma length_of_mapM {α β : Type} {f : α → Option β} : ∀ {l : List α} {l' : List β},
    l.mapM f = some l' → l'.length = l.length := by
  intro l
  induction l with
  | nil =>
    intro l' h
    cases h
    rfl
  | cons a l ih =>
    intro l' h
    rw [mapM_cons] at h
    obtain ⟨b, -, h⟩ := bind_eq_some_iff.mp h
    have ⟨bs, hbs, h⟩ := bind_eq_some_iff.mp h
    cases h
    rw [length_cons, length_cons, ih hbs]

lemma sharedFrames_length {g : GuestMemory} {pl : Pool} {old keep : Nat}
    {frames : List Nat} (h : g.sharedFrames old keep pl = some frames) (hk : keep % 4096 = 0) :
    frames.length * 4096 = keep := by
  unfold sharedFrames at h
  split at h
  · cases h
  rw [length_of_mapM h, length_map, length_range]
  omega

variable {old oldSize new newSize : Nat} {prot : Prot} {e : Option Errno}

lemma moveInto_addresses (h : s.moveInto old oldSize new newSize prot = some (e, s')) :
    SameAddresses s s' := by
  unfold moveInto at h
  dsimp only at h
  split at h
  · obtain ⟨o, -, ho⟩ := map_eq_some_iff.mp h
    split at ho
    · cases ho
      exact .after s _
    split at ho
    · cases ho
      exact .after s _
    · cases ho
      exact .after s _
  split at h
  · cases h
    exact .after s _
  split at h
  · cases h
    exact .after s _
  · cases h
    exact .after s _

lemma moveInto_lt (h : s.moveInto old oldSize new newSize prot = some (none, s'))
    (hnew : new < 2 ^ 64) (hal : new % 4096 = 0) (hsize : newSize < 2 ^ 64)
    (hwhole : newSize % 4096 = 0) (hwhole' : oldSize % 4096 = 0) : new + newSize < 2 ^ 64 := by
  by_cases hzero : newSize = 0
  · omega
  unfold moveInto at h
  dsimp only at h
  split at h
  next frames hframes =>
    have hcount := sharedFrames_length hframes (by omega)
    have ⟨⟨res, g', pl'⟩, ho, hres⟩ := map_eq_some_iff.mp h
    cases res with
    | error e => cases hres
    | ok u =>
      -- the frames kept fit, so the sum with what is added is not cut off
      have hkeep : new + min oldSize newSize < 2 ^ 64 := by
        by_cases hne : frames = []
        · subst hne
          rw [length_nil] at hcount
          omega
        · rw [← hcount]
          exact (mapFrames_delivers hne ho rfl).1
      dsimp only at hres
      split at hres
      next hlt =>
        have hmore := @mapSharedAnon_delivers g' pl'
          (u64 (new + min oldSize newSize)) (newSize - min oldSize newSize) prot
        have haddr : u64 (new + min oldSize newSize) = new + min oldSize newSize :=
          Nat.mod_eq_of_lt hkeep
        rw [haddr] at hres hmore
        generalize g'.mapSharedAnon _ _ prot pl' = w at hres hmore
        obtain ⟨res, g2, pl2⟩ := w
        cases res with
        | error e => cases hres
        | ok u =>
          have := (hmore hkeep (by omega) (by omega) (by omega) (.inl (by omega)) rfl).1
          omega
      · omega
  · have hmap := @map_delivers s.mem s.pool new newSize prot hnew (by omega) hsize
      hwhole (.inl hal)
    generalize s.mem.map new newSize prot s.pool = o at h hmap
    obtain ⟨res, g', pl'⟩ := o
    cases res with
    | error e => cases h
    | ok u => exact (hmap rfl).1

/-! ### What was handed out -/

/-- What was handed out is not free, and no address of it was handed out twice. -/
structure Held (s : Space) : Prop where
  ok : s.arena.Ok
  taken : ∀ x, Covered s.out x → ¬s.arena.Free x
  apart : s.out.Pairwise fun r t => ∀ x, In r x → ¬In t x

/-- A range that shares no address with any that was handed out. -/
def Untouched (s : Space) (r : Range) : Prop := ∀ t ∈ s.out, ∀ x, In r x → ¬In t x

section

variable (h : Held s)
include h

lemma Held.same (hs : SameAddresses s s') : Held s' := by
  refine ⟨?_, ?_, ?_⟩
  · rw [hs.arena]
    exact h.ok
  · rw [hs.arena, hs.out]
    exact h.taken
  · rw [hs.out]
    exact h.apart

lemma Held.untouched {r : Range} (hr : ∀ x, In r x → s.arena.Free x) :
    s.Untouched r := fun t ht x hx htx => h.taken x ⟨t, ht, htx⟩ (hr x hx)

variable {arena : Arena}

lemma Held.shrink (hok : arena.Ok) (hsub : ∀ x, arena.Free x → s.arena.Free x) :
    Held { s with arena := arena } :=
  ⟨hok, fun x hx hf => h.taken x hx (hsub x hf), h.apart⟩

lemma Held.hand_fresh {r : Range} (hr : ∀ x, In r x → ¬s.arena.Free x)
    (hnew : s.Untouched r) : Held (s.hand (.fresh r)) := by
  refine ⟨h.ok, fun x hx => ?_, pairwise_cons.mpr ⟨hnew, h.apart⟩⟩
  rcases Ranges.covered_cons.mp hx with hx | hx
  · exact hr x hx
  · exact h.taken x hx

omit h in
lemma apart_cutAll {l : List Range} (h : l.Pairwise fun r t => ∀ x, In r x → ¬In t x)
    (lo hi : Nat) (hle : lo ≤ hi) :
    (Ranges.cutAll lo hi l).Pairwise fun r t => ∀ x, In r x → ¬In t x := by
  have hin : ∀ {r t : Range}, t ∈ Ranges.cut lo hi r → ∀ x, In t x → In r x := by
    intro r t ht x hx
    have := Ranges.mem_cut ht
    unfold In at *
    omega
  refine pairwise_flatMap.mpr ⟨fun r _ => ?_, h.imp ?_⟩
  · refine (Ranges.pairwise_cut hle).imp fun hrt x hx => ?_
    unfold Ranges.Before at hrt
    unfold In at *
    omega
  · intro r t hrt r' hr' t' ht' x hx hx'
    exact hrt x (hin hr' x hx) (hin ht' x hx')

lemma Held.hand_fixed {r : Range} (hr : ∀ x, In r x → ¬s.arena.Free x) :
    Held (s.hand (.fixed r)) := by
  refine ⟨h.ok, fun x hx => ?_, pairwise_cons.mpr ⟨fun t ht x hx hx' => ?_, ?_⟩⟩
  · rcases Ranges.covered_cons.mp hx with hx | hx
    · exact hr x hx
    · exact h.taken x (Ranges.covered_cutAll.mp hx).1
  · exact (Ranges.covered_cutAll.mp ⟨t, ht, hx'⟩).2 hx
  · exact apart_cutAll h.apart _ _ (Nat.le_add_right ..)

lemma Held.release (addr len : Nat) : Held (s.release addr len) := by
  have ⟨hok, hfree⟩ := Arena.freeRange_spec h.ok addr len
  refine ⟨hok, fun x hx hf => ?_, apart_cutAll h.apart _ _ (Nat.le_add_right ..)⟩
  have ⟨hx, hn⟩ := Ranges.covered_cutAll.mp hx
  rcases hfree x hf with hf | hf
  · exact h.taken x hx hf
  · exact hn hf

lemma Held.alloc {p : Nat} (ha : s.arena.alloc len = some (p, arena)) :
    Held { s with arena := arena } ∧ (∀ x, In (p, len) x → ¬arena.Free x) ∧
      s.Untouched (p, len) := by
  have ⟨hok, hwas, hfree⟩ := Arena.alloc_spec h.ok ha
  exact ⟨h.shrink hok fun x hx => ((hfree x).mp hx).1, fun x hx hf => ((hfree x).mp hf).2 hx,
    h.untouched hwas⟩

lemma Held.claim (addr len : Nat) : Held { s with arena := s.arena.claim addr len } ∧
      (addr + len < 2 ^ 64 → ∀ x, In (addr, len) x → ¬(s.arena.claim addr len).Free x) := by
  have ⟨hok, hfree⟩ := Arena.claim_spec h.ok addr len
  refine ⟨h.shrink hok fun x hx => ?_, fun hlt x hx hf => ((hfree hlt x).mp hf).2 hx⟩
  by_cases hlt : addr + len < 2 ^ 64
  · exact ((hfree hlt x).mp hx).1
  · rwa [Arena.claim, if_pos (.inl (not_lt.mp hlt))] at hx

/-! ### The calls -/

/-- The accounts are kept, and only what nobody has is handed out. -/
def Fair (s : Space) (r : Except Errno Nat × Option Grant × Space) : Prop :=
  Held r.2.2 ∧ ∀ g, r.2.1 = some (.fresh g) → s.Untouched g

lemma Fair.of_same (hs : SameAddresses s s') (res : Except Errno Nat) :
    s.Fair (res, none, s') := ⟨h.same hs, nofun⟩

omit h in
lemma roundUp_facts {v : Nat} : roundUp v 4096 < 2 ^ 64 ∧ roundUp v 4096 % 4096 = 0 := by
  unfold roundUp u64
  omega

omit h in
lemma pageOf_facts (v : BitVec 64) : pageOf v.toNat < 2 ^ 64 ∧ pageOf v.toNat % 4096 = 0 := by
  have := v.isLt
  unfold pageOf
  omega

lemma mmap_fair {a : MmapArgs} {env : MmapEnv}
    {r : Except Errno Nat × Option Grant × Space} (hr : s.mmap a env = some r) : s.Fair r := by
  have ⟨hsize, hwhole⟩ := roundUp_facts (v := a.len.toNat)
  have ⟨haddr, hal⟩ := pageOf_facts a.addr
  unfold mmap at hr
  split at hr
  · cases hr
    exact .of_same h (.refl s) _
  split at hr
  · cases hr
    exact .of_same h (.refl s) _
  rename_i file hcheck base arena hplace
  have ⟨⟨e, s1⟩, hinst, hr⟩ := map_eq_some_iff.mp hr
  have haddrs := install_addresses hinst
  unfold place at hplace
  split at hplace
  · -- at the caller's address
    rename_i hfixed
    dsimp only at hplace
    split at hplace
    · cases hplace
    cases hplace
    have ⟨hheld, hgone⟩ := h.claim (pageOf a.addr.toNat) a.rounded
    cases e with
    | some e =>
      cases hr
      exact ⟨hheld.same haddrs, nofun⟩
    | none =>
      cases hr
      rw [if_pos hfixed]
      refine ⟨(hheld.same haddrs).hand_fixed ?_, nofun⟩
      rw [haddrs.arena]
      refine hgone ?_
      by_cases hpos : 0 < a.rounded
      · exact (install_delivers hinst haddr hpos hsize hwhole (.inl hal)).1
      · omega
  next hfixed =>
    split at hplace
    next hall =>
      cases hplace
      have ⟨hheld, hgone, hnew⟩ := h.alloc hall
      cases e with
      | some e =>
        cases hr
        exact ⟨hheld.same haddrs, nofun⟩
      | none =>
        cases hr
        rw [if_neg hfixed]
        refine ⟨(hheld.same haddrs).hand_fresh ?_ ?_, ?_⟩
        · rw [haddrs.arena]
          exact hgone
        · intro t ht
          rw [haddrs.out] at ht
          exact hnew t ht
        rintro g hg
        cases hg
        exact hnew
    · cases hplace

lemma munmap_fair {addr len : BitVec 64}
    {r : Except Errno Nat × Option Grant × Space} (hr : s.munmap addr len = some r) : s.Fair r := by
  unfold munmap at hr
  split at hr
  · cases hr
    exact .of_same h (.refl s) _
  · cases hr
    exact ⟨(h.same (.after s _)).release .., nofun⟩

lemma shmdt_fair {frames : Nat} {addr : BitVec 64}
    {r : Except Errno Nat × Option Grant × Space} (hr : s.shmdt frames addr = some r) :
    s.Fair r := by
  cases hr
  exact ⟨(h.same (.after s _)).release .., nofun⟩

omit h in
lemma brk_addresses {addr : BitVec 64} {limit : Option Nat} {dataLimit : Nat}
    {r : Except Errno Nat × Option Grant × Space} (hr : s.brk addr limit dataLimit = some r) :
    r.2.1 = none ∧ r.2.2.arena = s.arena ∧ r.2.2.out = s.out := by
  unfold brk at hr
  dsimp only at hr
  split at hr
  · cases hr
    exact ⟨rfl, rfl, rfl⟩
  split at hr
  · split at hr
    · cases hr
      exact ⟨rfl, rfl, rfl⟩
    split at hr
    · cases hr
      exact ⟨rfl, rfl, rfl⟩
    · cases hr
      split <;> exact ⟨rfl, rfl, rfl⟩
  · cases hr
    split <;> exact ⟨rfl, rfl, rfl⟩

lemma shmat_fair {frames : List Nat} {addr flags : BitVec 64}
    {r : Except Errno Nat × Option Grant × Space} (hr : s.shmat frames addr flags = some r) :
    s.Fair r := by
  unfold shmat at hr
  dsimp only at hr
  generalize (if flags &&& 0o20000 ≠ 0 then pageOf addr.toNat else addr.toNat) = base at hr
  split at hr
  · cases hr
    exact .of_same h (.refl s) _
  rename_i grant arena hplace
  have ⟨⟨res, g', pl'⟩, ho, hr⟩ := map_eq_some_iff.mp hr
  split at hplace
  · split at hplace
    · cases hplace
    split at hplace
    next hall =>
      cases hplace
      have ⟨hheld, hgone, hnew⟩ := h.alloc hall
      cases res with
      | error e =>
        cases hr
        exact ⟨hheld.same ⟨rfl, rfl, rfl⟩, nofun⟩
      | ok u =>
        cases hr
        have hafter : Held { s.after (.ok u, g', pl') with arena := arena } :=
          hheld.same ⟨rfl, rfl, rfl⟩
        refine ⟨hafter.hand_fresh hgone hnew, ?_⟩
        rintro g hg
        cases hg
        exact hnew
    · cases hplace
  split at hplace
  · cases hplace
  split at hplace
  · cases hplace
  cases hplace
  have ⟨hheld, hgone⟩ := h.claim base (frames.length * 4096)
  cases res with
  | error e =>
    cases hr
    exact ⟨hheld.same ⟨rfl, rfl, rfl⟩, nofun⟩
  | ok u =>
    cases hr
    have hafter : Held { s.after (.ok u, g', pl') with
        arena := s.arena.claim base (frames.length * 4096) } := hheld.same ⟨rfl, rfl, rfl⟩
    refine ⟨hafter.hand_fixed ?_, nofun⟩
    by_cases hne : frames = []
    · subst hne
      intro x hx
      unfold In at hx
      dsimp only [length_nil] at hx
      omega
    · exact hgone (mapFrames_delivers hne ho rfl).1

omit h in
lemma relocate_fair (hout : s'.out = s.out) (hheld : Held s')
    {a : MremapArgs} (hwhole : newSize % 4096 = 0) (hwhole' : oldSize % 4096 = 0)
    (hsize : newSize < 2 ^ 64) (hplaced : if a.fixed then new < 2 ^ 64 ∧ new % 4096 = 0 ∧
        (new + newSize < 2 ^ 64 → ∀ x, In (new, newSize) x → ¬s'.arena.Free x)
      else (∀ x, In (new, newSize) x → ¬s'.arena.Free x) ∧ s.Untouched (new, newSize))
    {r : Except Errno Nat × Option Grant × Space}
    (hr : s'.relocate a oldSize newSize new prot = some r) : s.Fair r := by
  have ⟨⟨e, s1⟩, hmove, hr⟩ := map_eq_some_iff.mp hr
  have ⟨⟨e', s2⟩, hinto, hmove⟩ := map_eq_some_iff.mp hmove
  have hinto' := moveInto_addresses hinto
  cases e' with
  | some e' =>
    cases hmove
    cases hr
    exact ⟨hheld.same hinto', nofun⟩
  | none =>
    cases hmove
    cases hr
    -- the old pages are unmapped or emptied after that
    have haddrs := hinto'.trans (.after s2 (if a.dontUnmap then
      s2.mem.map a.oldAddr.toNat oldSize prot s2.pool
      else s2.mem.unmap a.oldAddr.toNat oldSize s2.pool))
    have hheld2 := hheld.same haddrs
    generalize s2.after _ = s3 at haddrs hheld2 ⊢
    have hhand : ∀ grant, Held (s3.hand grant) → Held (if a.dontUnmap then s3.hand grant
        else (s3.hand grant).release a.oldAddr.toNat oldSize) := by
      intro grant hg
      split
      · exact hg
      · exact hg.release ..
    split at hplaced
    next hfixed =>
      obtain ⟨hnew, hal, hgone⟩ := hplaced
      rw [if_pos hfixed]
      refine ⟨hhand _ (hheld2.hand_fixed ?_), nofun⟩
      rw [haddrs.arena]
      exact hgone (moveInto_lt hinto hnew hal hsize hwhole hwhole')
    rename_i hfixed
    obtain ⟨hgone, hnew⟩ := hplaced
    rw [if_neg hfixed]
    refine ⟨hhand _ (hheld2.hand_fresh ?_ ?_), ?_⟩
    · rw [haddrs.arena]
      exact hgone
    · intro t ht
      rw [haddrs.out, hout] at ht
      exact hnew t ht
    rintro g hg
    cases hg
    exact hnew

lemma grow_fair {a : MremapArgs} (hfixed : ¬a.fixed = true) {oldEnd extra : Nat}
    (hwhole : newSize % 4096 = 0) (hwhole' : oldSize % 4096 = 0) (hsize : newSize < 2 ^ 64)
    {r : Except Errno Nat × Option Grant × Space}
    (hr : s.grow a oldSize newSize oldEnd extra prot = some r) : s.Fair r := by
  unfold grow at hr
  have hroom : ∀ o, o = (if s.roomAfter a oldEnd extra then s.mem.map oldEnd extra prot s.pool
      else (.error .exhausted, s.mem, s.pool)) → o.1 = .ok () →
      s.roomAfter a oldEnd extra = true := by
    rintro o rfl
    split
    · exact fun _ => by assumption
    · exact nofun
  generalize (if s.roomAfter a oldEnd extra then s.mem.map oldEnd extra prot s.pool
    else (.error .exhausted, s.mem, s.pool)) = tried at hr hroom
  have h1 : Held (s.after tried) := h.same (.after s tried)
  dsimp only at hr
  split at hr
  · -- into free space
    rename_i hok
    have hroom := hroom tried rfl hok
    cases hr
    obtain ⟨hheld, hgone⟩ := h1.claim oldEnd extra
    simp only [roomAfter, Arena.isFree, Bool.and_eq_true, decide_eq_true_eq,
      List.any_eq_true] at hroom
    obtain ⟨⟨-, hlt, f, hf, hlo, hhi⟩, -⟩ := hroom
    have hnew : s.Untouched (oldEnd, extra) := by
      refine h.untouched fun x hx => .inr ⟨f, hf, ?_⟩
      unfold In at *
      omega
    refine ⟨hheld.hand_fresh (hgone hlt) hnew, ?_⟩
    rintro g hg
    cases hg
    exact hnew
  split at hr
  · cases hr
    exact .of_same h (.after s tried) _
  split at hr
  · cases hr
    exact .of_same h (.after s tried) _
  rename_i base arena hall
  obtain ⟨hheld, hgone, huntouched⟩ := h1.alloc hall
  refine relocate_fair rfl hheld hwhole hwhole' hsize ?_ hr
  rw [if_neg hfixed]
  exact ⟨hgone, huntouched⟩

lemma resize_fair {a : MremapArgs} {oldEnd : Nat} (hwhole : newSize % 4096 = 0)
    (hwhole' : oldSize % 4096 = 0) (hsize : newSize < 2 ^ 64)
    {r : Except Errno Nat × Option Grant × Space}
    (hr : s.resize a oldSize newSize oldEnd prot = some r) : s.Fair r := by
  unfold resize at hr
  dsimp only at hr
  split at hr
  next hfixed =>
    split at hr
    · cases hr
      exact .of_same h (.refl s) _
    rename_i hal
    push Not at hal
    have ⟨hheld, hgone⟩ := h.claim a.newAddr.toNat newSize
    refine relocate_fair rfl hheld hwhole hwhole' hsize ?_ hr
    rw [if_pos hfixed]
    exact ⟨a.newAddr.isLt, hal.1, hgone⟩
  rename_i hfixed
  split at hr
  · cases hr
    exact ⟨(h.same (.after s _)).release .., nofun⟩
  · exact grow_fair h hfixed hwhole hwhole' hsize hr

lemma mremap_fair {a : MremapArgs} {limit : Option Nat}
    {r : Except Errno Nat × Option Grant × Space} (hr : s.mremap a limit = some r) : s.Fair r := by
  obtain ⟨-, hold⟩ := roundUp_facts (v := a.oldSize.toNat)
  have ⟨hsize, hnew⟩ := roundUp_facts (v := a.newSize.toNat)
  have hrefused : ∀ e : Errno, s.Fair (.error e, none, s) := fun e => .of_same h (.refl s) _
  unfold mremap at hr
  dsimp only at hr
  split at hr
  · cases hr
    exact hrefused _
  split at hr
  · cases hr
    exact hrefused _
  split at hr
  · cases hr
    exact hrefused _
  split at hr
  · cases hr
    exact hrefused _
  split at hr
  · cases hr
    exact hrefused _
  · exact resize_fair h hnew hold hsize hr

lemma call_fair {c : Call} {r : Except Errno Nat × Option Grant × Space}
    (hr : s.call c = some r) : s.Fair r := by
  cases c with
  | mmap a env => exact mmap_fair h hr
  | munmap addr len => exact munmap_fair h hr
  | mremap a limit => exact mremap_fair h hr
  | brk addr limit dataLimit =>
    have ⟨hg, harena, hout⟩ := brk_addresses hr
    refine ⟨⟨harena ▸ h.ok, ?_, hout ▸ h.apart⟩, fun g hgr => ?_⟩
    · rw [harena, hout]
      exact h.taken
    · rw [hg] at hgr
      cases hgr
  | shmat frames addr flags => exact shmat_fair h hr
  | shmdt frames addr => exact shmdt_fair h hr

end

lemma Fresh.held (h : s.Fresh) : Held s := by
  obtain ⟨top, floor, hle, htop, harena, hout⟩ := h
  refine ⟨harena ▸ Arena.ok_new hle htop, fun x hx => ?_, hout ▸ List.Pairwise.nil⟩
  rw [hout] at hx
  exact absurd hx (by simp)

lemma held_of_reach {s0 : Space} (h0 : s0.Fresh)
    (h : Run.Reach step (fun _ _ => True) s0 s) : Held s := by
  refine Run.Reach.invariant (P := Held) h h0.held fun s c s' hi _ hs => ?_
  obtain ⟨r, hr, rfl⟩ := map_eq_some_iff.mp hs
  exact (call_fair hi hr).1

/-- **A range is handed out once.** After any run of calls on a new space the free list is sorted
and disjoint inside `[cursor, top)`, the ranges handed out are disjoint from each other and from
what is free, and what a call then hands out or grows into is disjoint from them all. -/
theorem handed_out_once (s₀ s : Space) (h₀ : s₀.Fresh) (h : Run.Reach step (fun _ _ => True) s₀ s) :
    s.arena.free.Pairwise (fun e f => e.1 + e.2 ≤ f.1) ∧
    (∀ e ∈ s.arena.free, 0 < e.2 ∧ s.arena.cursor ≤ e.1 ∧ e.1 + e.2 ≤ s.arena.top) ∧
    s.arena.floor ≤ s.arena.cursor ∧ s.arena.cursor ≤ s.arena.top ∧
    s.out.Pairwise (fun r t => ∀ x, In r x → ¬In t x) ∧
    (∀ r ∈ s.out, ∀ x, In r x → ¬s.arena.Free x) ∧
    ∀ c res r s', s.call c = some (res, some (.fresh r), s') →
      ∀ t ∈ s.out, ∀ x, In r x → ¬In t x := by
  have hheld := held_of_reach h₀ h
  have hinside := hheld.ok.sorted.inside_iff.mp hheld.ok.inside
  refine ⟨hheld.ok.sorted.before, fun e he => ?_, hheld.ok.floor_le, hheld.ok.cursor_le,
    hheld.apart, fun r hr x hx => hheld.taken x ⟨r, hr, hx⟩, fun c res r s' hr => ?_⟩
  · exact ⟨hheld.ok.sorted.nonempty e he, hinside e he⟩
  · exact (call_fair hheld hr).2 r rfl

/-- A space of sixteen pages, the upper eight of them the arena's. -/
def small : Space where
  arena := .new 0x20000 0x18000
  mem := .empty 0x10000 0x10000 ⟨0⟩ 0
  pool := ⟨.new 0, .new 0⟩
  heap := ⟨0x10000, 0x10000, 0x18000⟩
  out := []

lemma small_fresh : small.Fresh := ⟨0x20000, 0x18000, by decide, by decide, rfl, rfl⟩

def plain : MmapEnv where
  limit := none
  mdwe := false
  fd := .closed
  frames _ pl := (.error .enoent, pl)
  frames_length _ _ _ h := by cases h
  data _ := []
  data_length _ := Nat.zero_le _

/-- A private anonymous page, at an address or not. -/
def onePage (addr flags : BitVec 64) : MmapArgs := ⟨addr, 4096, 3, 0x22 ||| flags, 0⟩

theorem handed_out_once_two : ∃ s, Run.Reach step (fun _ _ => True) small s ∧
    s.out = [(0x1e000, 4096), (0x1f000, 4096)] ∧
    s.out.Pairwise (fun r t => ∀ x, In r x → ¬In t x) := by
  have hrun : ∃ s, Run.exec step [.mmap (onePage 0 0) plain, .mmap (onePage 0 0) plain] small
      = some s ∧ s.out = [(0x1e000, 4096), (0x1f000, 4096)] := ⟨_, rfl, by decide⟩
  obtain ⟨s, hs, hout⟩ := hrun
  have hreach := Run.Reach.of_exec_free _ hs
  exact ⟨s, hreach, hout, (handed_out_once small s small_fresh hreach).2.2.2.2.1⟩

/-- `MAP_FIXED` at the address of a mapping grants a range that was handed out before. -/
theorem fixed_granted_again : ∃ s₀ s s' : Space, s₀.Fresh ∧ Run.Reach step (fun _ _ => True) s₀ s ∧
    s.call (.mmap (onePage 0x1f000 0x10) plain) =
      some (.ok 0x1f000, some (.fixed (0x1f000, 4096)), s') ∧ (0x1f000, 4096) ∈ s.out := by
  have hrun : ∃ s, Run.exec step [.mmap (onePage 0 0) plain] small = some s ∧
      (∃ s', s.call (.mmap (onePage 0x1f000 0x10) plain) =
        some (.ok 0x1f000, some (.fixed (0x1f000, 4096)), s')) ∧
      (0x1f000, 4096) ∈ s.out := ⟨_, rfl, ⟨_, rfl⟩, by decide⟩
  obtain ⟨s, hs, ⟨s', hs'⟩, hmem⟩ := hrun
  exact ⟨small, s, s', small_fresh, .of_exec_free _ hs, hs', hmem⟩

/-! ### What is there -/

structure HeapMapped (s : Space) : Prop where
  base : s.mem.base % 4096 = 0
  limit_whole : s.heap.limit % 4096 = 0
  limit_lt : s.heap.limit < 2 ^ 64
  brk_le : s.heap.brk ≤ s.heap.limit
  mapped : ∀ x, s.heap.start ≤ x → x < roundUp s.heap.brk 4096 → (s.mem.pageProt x).isSome

lemma roundUp_eq {v : Nat} (h : v + 4096 ≤ 2 ^ 64) :
    v ≤ roundUp v 4096 ∧ roundUp v 4096 < v + 4096 := by
  unfold roundUp u64
  omega

lemma brk_delivers (h : s.HeapMapped) {addr : BitVec 64} (haddr : addr.toNat + 4096 ≤ 2 ^ 64)
    {limit : Option Nat} {dataLimit b : Nat} {g : Option Grant}
    (hr : s.brk addr limit dataLimit = some (.ok b, g, s')) :
    b = s'.heap.brk ∧ s'.HeapMapped ∧ s'.heap.limit = s.heap.limit ∧
      s'.heap.start = s.heap.start := by
  have hbrk := roundUp_eq (v := s.heap.brk) (by
    have := h.limit_lt
    have := h.limit_whole
    have := h.brk_le
    omega)
  have hnew := roundUp_eq haddr
  have ⟨hlo, hlo'⟩ := roundUp_facts (v := s.heap.brk)
  have ⟨hhi, hhi'⟩ := roundUp_facts (v := addr.toNat)
  unfold brk at hr
  dsimp only at hr
  split at hr
  · cases hr
    exact ⟨rfl, h, rfl, rfl⟩
  split at hr
  next hgt =>
    split at hr
    · cases hr
      exact ⟨rfl, h, rfl, rfl⟩
    rename_i hchecks
    push Not at hchecks
    split at hr
    · -- the pages were refused; those that were there still are
      cases hr
      refine ⟨rfl, ⟨?_, h.limit_whole, h.limit_lt, h.brk_le, fun x hx hx' => ?_⟩, rfl, rfl⟩
      · exact (congrArg (· % 4096) (map_geometry s.mem _ _ _ s.pool).1).trans h.base
      · exact map_keeps (h.mapped x hx hx')
    rename_i hmap
    cases hr
    split
    next hlt =>
      have hok : (s.mem.map (roundUp s.heap.brk 4096)
          (roundUp addr.toNat 4096 - roundUp s.heap.brk 4096) .rw s.pool).1 = .ok () := by
        by_contra hne
        exact hmap ⟨hlt, hne⟩
      obtain ⟨-, hdel⟩ := map_delivers hlo (by omega) (by omega) (by omega)
        (.inl hlo') hok
      refine ⟨rfl, ⟨?_, h.limit_whole, h.limit_lt, ?_, fun x hx hx' => ?_⟩, rfl, rfl⟩
      · exact (congrArg (· % 4096) (map_geometry s.mem _ _ _ s.pool).1).trans h.base
      · exact le_trans hnew.1 hchecks.1
      by_cases hold : x < roundUp s.heap.brk 4096
      · exact map_keeps (h.mapped x hx hold)
      have hx' : x < roundUp addr.toNat 4096 := hx'
      exact isSome_iff_exists.mpr ⟨_, hdel x (by omega) (by omega)⟩
    next hle =>
      refine ⟨rfl, ⟨h.base, h.limit_whole, h.limit_lt, ?_, fun x hx hx' => ?_⟩, rfl, rfl⟩
      · exact le_trans hnew.1 hchecks.1
      have hx' : x < roundUp addr.toNat 4096 := hx'
      exact h.mapped x hx (by omega)
  next hle =>
    cases hr
    have hle' : addr.toNat ≤ s.heap.limit := le_trans (not_lt.mp hle) h.brk_le
    split
    · refine ⟨rfl, ⟨?_, h.limit_whole, h.limit_lt, hle', fun x hx hx' => ?_⟩, rfl, rfl⟩
      · exact (congrArg (· % 4096) (unmap_other s.mem _ _ s.pool).1).trans h.base
      have hx' : x < roundUp addr.toNat 4096 := hx'
      exact unmap_keeps h.base hhi' hx' (h.mapped x hx (by omega))
    · refine ⟨rfl, ⟨h.base, h.limit_whole, h.limit_lt, hle', fun x hx hx' => ?_⟩, rfl, rfl⟩
      have hx' : x < roundUp addr.toNat 4096 := hx'
      exact h.mapped x hx (by omega)

/-- An `mmap` that returns an address has installed its pages there. -/
lemma mmap_ok {a : MmapArgs} {env : MmapEnv} {p : Nat} {g : Option Grant}
    (hr : s.mmap a env = some (.ok p, g, s')) : ∃ file arena s₁,
      s.place a a.rounded = .ok (p, arena) ∧ s'.mem = s₁.mem ∧
      { s with arena }.install a env file p a.rounded = some (none, s₁) := by
  unfold mmap at hr
  split at hr
  · cases hr
  split at hr
  · cases hr
  rename_i hplace
  have ⟨⟨e, s1⟩, hinst, hr⟩ := map_eq_some_iff.mp hr
  cases e with
  | some e => cases hr
  | none =>
    cases hr
    exact ⟨_, _, s1, hplace, by split <;> rfl, hinst⟩

lemma mmap_delivers (h : Held s) {a : MmapArgs} {env : MmapEnv}
    (hlen : a.len.toNat + 4096 ≤ 2 ^ 64) {p : Nat} {g : Option Grant}
    (hr : s.mmap a env = some (.ok p, g, s')) : s'.mem.Delivered p a.len.toNat a.wanted := by
  have ⟨hsize, hwhole⟩ := roundUp_facts (v := a.len.toNat)
  have ⟨haddr, hal⟩ := pageOf_facts a.addr
  have hround := roundUp_eq hlen
  obtain ⟨file, arena, s1, hplace, hmem, hinst⟩ := mmap_ok hr
  rw [hmem]
  intro x hx hx'
  have hpos : 0 < a.rounded := by unfold MmapArgs.rounded; omega
  have hbase : p < 2 ^ 64 ∧ (p % 4096 = 0 ∨ p + a.rounded + 4096 ≤ 2 ^ 64) := by
    unfold place at hplace
    split at hplace
    · dsimp only at hplace
      split at hplace
      · cases hplace
      cases hplace
      exact ⟨haddr, .inl hal⟩
    split at hplace
    next hall =>
      cases hplace
      -- what the arena finds is below its top
      obtain ⟨-, hwas, -⟩ := Arena.alloc_spec h.ok hall
      have hlast := h.ok.free_bounds (hwas (p + a.rounded - 1) (by
        unfold In
        omega))
      have := h.ok.top_le
      exact ⟨by omega, .inr (by omega)⟩
    · cases hplace
  refine (install_delivers hinst hbase.1 hpos hsize hwhole hbase.2).2 x hx ?_
  unfold MmapArgs.rounded
  omega

lemma roundUp_wraps {v : BitVec 64} (h : 2 ^ 64 < v.toNat + 4096) : roundUp v.toNat 4096 = 0 := by
  have := v.isLt
  unfold roundUp u64
  omega

/-- What rounds up to 2^64 reaches beyond a memory that ends below the last page. -/
lemma not_delivered {g : GuestMemory} {p len : Nat} {prot : Prot} (hmem : g.limit + 4096 ≤ 2 ^ 64)
    (hlen : 2 ^ 64 < len + 4096) : ¬g.Delivered p len prot := by
  intro hdel
  have hlast := hdel (p + len - 1) (by omega) (by omega)
  have hout : g.pageIndex (p + len - 1) = none := if_pos (.inr (by omega))
  unfold GuestMemory.pageProt at hlast
  rw [hout] at hlast
  cases hlast

/-- A break that rounds up to 2^64 is refused for one of these reasons only. -/
def BrkRefused (s : Space) (addr : BitVec 64) (limit : Option Nat) (dataLimit : Nat) : Prop :=
  addr.toNat < s.heap.start ∨ dataLimit < u64 (2 ^ 64 - s.heap.start) ∨
    s.addressSpaceExceeded limit 0 = true

lemma brk_wraps (h : s.HeapMapped) {addr : BitVec 64} (haddr : 2 ^ 64 < addr.toNat + 4096)
    {limit : Option Nat} {dataLimit b : Nat} {g : Option Grant}
    (hr : s.brk addr limit dataLimit = some (.ok b, g, s')) :
    s.BrkRefused addr limit dataLimit ∧ b = s.heap.brk ∧ s' = s ∨
      ¬s.BrkRefused addr limit dataLimit ∧ s.heap.limit < b := by
  have hlt := addr.isLt
  have hlimit : s.heap.limit + 4096 ≤ 2 ^ 64 := by
    have := h.limit_lt
    have := h.limit_whole
    omega
  have hround := roundUp_wraps haddr
  have hgt : s.heap.brk < addr.toNat := by
    have := h.brk_le
    omega
  unfold brk at hr
  dsimp only at hr
  rw [if_pos hgt, hround, Nat.zero_add, Nat.zero_sub] at hr
  unfold BrkRefused
  split at hr
  next hlow =>
    cases hr
    exact .inl ⟨.inl (by omega), rfl, rfl⟩
  next hlow =>
    split at hr
    next hrefused =>
      cases hr
      exact .inl ⟨.inr (hrefused.resolve_left (Nat.not_lt_zero _)), rfl, rfl⟩
    next hallowed =>
      push Not at hlow hallowed
      rw [if_neg (fun hc => absurd hc.1 (Nat.not_lt_zero _)),
        if_neg (Nat.not_lt_zero _)] at hr
      cases hr
      refine .inr ⟨?_, by omega⟩
      rintro (hc | hc | hc)
      · omega
      · omega
      · exact hallowed.2.2 hc

/-- **`mmap` and `brk` deliver what they report.** From any state of a run, an `mmap` that returns
an address has mapped what it was asked for, with that protection, exactly if the length does not
round up to 2^64; and a `brk` returns a break within the limit, with the heap below it mapped,
exactly if its address does not, or is refused all the same. -/
theorem mmap_and_brk_deliver (s₀ s : Space) (h₀ : s₀.Fresh)
    (h : Run.Reach step (fun _ _ => True) s₀ s) :
    (∀ a env p g s', s.mmap a env = some (.ok p, g, s') → s.mem.limit + 4096 ≤ 2 ^ 64 →
      ((∀ x, p ≤ x → x < p + a.len.toNat → s'.mem.pageProt x = some a.wanted) ↔
        a.len.toNat + 4096 ≤ 2 ^ 64)) ∧
    ∀ addr limit dataLimit b g s', s.HeapMapped →
      s.brk addr limit dataLimit = some (.ok b, g, s') →
      ((b ≤ s.heap.limit ∧ ∀ x, s.heap.start ≤ x → x < b → (s'.mem.pageProt x).isSome) ↔
        addr.toNat + 4096 ≤ 2 ^ 64 ∨ s.BrkRefused addr limit dataLimit) := by
  constructor
  · intro a env p g s' hr hmem
    constructor
    · intro hdel
      by_contra hlen
      have hwraps : 2 ^ 64 < a.len.toNat + 4096 := by omega
      obtain ⟨file, arena, s1, -, heq, hinst⟩ := mmap_ok hr
      have hsame := install_nothing (roundUp_wraps hwraps) hinst
      rw [heq] at hdel
      exact not_delivered hmem hwraps fun x hx hx' => (hsame.pageProt x).symm.trans (hdel x hx hx')
    · exact fun hlen => mmap_delivers (held_of_reach h₀ h) hlen hr
  intro addr limit dataLimit b g s' hheap hr
  have hmapped : ∀ {t : Space}, t.HeapMapped → ∀ x, t.heap.start ≤ x → x < t.heap.brk →
      (t.mem.pageProt x).isSome := by
    intro t ht x hx hx'
    refine ht.mapped x hx ?_
    have := ht.limit_lt
    have := ht.limit_whole
    have := ht.brk_le
    have := roundUp_eq (v := t.heap.brk) (by omega)
    omega
  by_cases haddr : addr.toNat + 4096 ≤ 2 ^ 64
  · obtain ⟨rfl, hheap', hlimit, hstart⟩ := brk_delivers hheap haddr hr
    refine iff_of_true ⟨hlimit ▸ hheap'.brk_le, fun x hx hx' => ?_⟩ (.inl haddr)
    exact hmapped hheap' x (hstart ▸ hx) hx'
  · rcases brk_wraps hheap (by omega) hr with ⟨hrefused, rfl, rfl⟩ | ⟨hallowed, hlt⟩
    · exact iff_of_true ⟨hheap.brk_le, hmapped hheap⟩ (.inr hrefused)
    · refine iff_of_false (fun hc => absurd hc.1 (by omega)) ?_
      rintro (hc | hc)
      · exact haddr hc
      · exact hallowed hc

theorem mmap_and_brk_deliver_pages : ∃ s₁ s₂ : Space,
    small.mmap (onePage 0 0) plain = some (.ok 0x1f000, some (.fresh (0x1f000, 4096)), s₁) ∧
    s₁.mem.pageProt 0x1f800 = some .rw ∧
    small.brk 0x10800 none 0xffffffffffffffff = some (.ok 0x10800, none, s₂) ∧
    (s₂.mem.pageProt 0x107ff).isSome := by
  have hmmap : ∃ s₁, small.mmap (onePage 0 0) plain =
      some (.ok 0x1f000, some (.fresh (0x1f000, 4096)), s₁) := ⟨_, rfl⟩
  have hbrk : ∃ s₂, small.brk 0x10800 none 0xffffffffffffffff =
      some (.ok 0x10800, none, s₂) := by
    unfold brk
    rw [if_neg (by decide), if_pos (by decide), if_neg (by decide), if_neg (by decide)]
    exact ⟨_, rfl⟩
  obtain ⟨s₁, h₁⟩ := hmmap
  obtain ⟨s₂, h₂⟩ := hbrk
  have hheap : small.HeapMapped := by
    refine ⟨by decide, by decide, by decide, by decide, fun x hx hx' => ?_⟩
    have hempty : x < 0x10000 := hx'
    exact absurd hempty (not_lt.mpr hx)
  have hboth := mmap_and_brk_deliver small small small_fresh .refl
  exact ⟨s₁, s₂, h₁, (hboth.1 _ _ _ _ _ h₁ (by decide)).mpr (by decide) _ (by decide) (by decide), h₂,
    ((hboth.2 _ _ _ _ _ _ hheap h₂).mpr (.inl (by decide))).2 _ (by decide) (by decide)⟩

/-- A length rounded up to 2^64 is mapped as none, and such a break is taken for one below the
limit. -/
theorem mmap_and_brk_wrap : ∃ s₁ s₂ : Space,
    small.mmap { onePage 0 0 with len := 0xffffffffffffffff } plain =
      some (.ok 0x20000, some (.fresh (0x20000, 0)), s₁) ∧
    s₁.mem.pageProt 0x20000 = none ∧
    small.brk 0xffffffffffffffff none 0xffffffffffffffff = some (.ok 0xffffffffffffffff, none, s₂) ∧
    small.heap.limit < 0xffffffffffffffff := by
  have hbrk : ∃ s₂, small.brk 0xffffffffffffffff none 0xffffffffffffffff =
      some (.ok 0xffffffffffffffff, none, s₂) := by
    unfold brk
    rw [if_neg (by decide), if_pos (by decide), if_neg (by decide), if_neg (by decide)]
    exact ⟨_, rfl⟩
  obtain ⟨s₂, hbrk⟩ := hbrk
  exact ⟨_, s₂, rfl, by decide, hbrk, by decide⟩

end Space

end NixVm
