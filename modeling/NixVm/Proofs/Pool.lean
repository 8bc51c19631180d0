/-
The books of the frame pool.

The page tables of all address spaces live in the frames of one pool, so they are radix trees in
one store: the node of an entry is the number of the frame it points at. `Good` says that the
refcounts are exact for the trees at `roots` and the references `held` by anyone else, and that the
free list and the live count follow the refcounts.
-/
import NixVm.Lib.Account
import NixVm.Proofs.Entry

namespace NixVm

open Finset Radix FrameAllocator

/-! ### The pool as a store of tables -/

def cell (m : PhysMem) (f i : Nat) : BitVec 64 := entry m (f * 4096) i

def ptr (e : BitVec 64) : Option Nat :=
  if Pte.present e then some (Pte.addr e / 4096) else none

variable {f i : Nat} {m : PhysMem}

lemma ptr_eq_some {e : BitVec 64} :
    ptr e = some f ↔ Pte.present e = true ∧ Pte.addr e = f * 4096 := by
  have hdiv := Pte.addr_div_mul e
  unfold ptr
  by_cases hp : Pte.present e = true
  · simp only [hp, if_true, Option.some.injEq, true_and]
    omega
  · simp [hp]

lemma ptr_eq_none {e : BitVec 64} : ptr e = none ↔ Pte.present e = false := by
  unfold ptr
  cases Pte.present e <;> simp

@[simp] lemma ptr_zero : ptr 0#64 = none := by
  rw [ptr_eq_none]; simp

@[simp] lemma ptr_readOnly (e : BitVec 64) : ptr (Pte.readOnly e) = ptr e := by
  simp [ptr]

lemma ptr_make (hf : f < 2 ^ 32) {flags : BitVec 64} (hc : Pte.Clear flags)
    (hp : Pte.present flags = true) : ptr (Pte.make (f * 4096) flags) = some f := by
  rw [ptr_eq_some, Pte.present_make hf, Pte.addr_make hf hc]
  exact ⟨hp, rfl⟩

lemma ptr_leaf (hf : f < 2 ^ 32) (prot : Prot) (supervisor : Bool) :
    ptr (Pte.make (f * 4096) (leafFlags prot supervisor)) = some f :=
  ptr_make hf (Pte.clear_leafFlags prot supervisor) (by simp)

def Same (m m' : PhysMem) (f : Nat) : Prop :=
  ∀ k, k < 4096 → m'.byte (f * 4096 + k) = m.byte (f * 4096 + k)

lemma Same.trans {m' m'' : PhysMem} (h : Same m m' f) (h' : Same m' m'' f) :
    Same m m'' f := fun k hk => (h' k hk).trans (h k hk)

lemma Same.cell {m' : PhysMem} (h : Same m m' f) (hi : i < 512) : cell m' f i = cell m f i := by
  refine Bytes.readWord_congr fun k hk => ?_
  have hbyte := h (i * 8 + k) (by omega)
  simpa only [add_assoc] using hbyte

lemma wrote_store (pl : Pool) (t : Nat) (hi : i < 512) (e : BitVec 64) :
    Wrote 512 (cell pl.phys) (cell (pl.store (t * 4096 + i * 8) e).phys) t i e := by
  intro f j hj
  by_cases h : f = t ∧ j = i
  · obtain ⟨rfl, rfl⟩ := h
    rw [if_pos ⟨rfl, rfl⟩]
    exact Bytes.readWord_writeWord ..
  · rw [if_neg h]
    exact Bytes.readWord_writeWord_of_disjoint _ _ (by omega)

lemma same_store (pl : Pool) (t : Nat) (hi : i < 512) (e : BitVec 64)
    (hf : f ≠ t) : Same pl.phys (pl.store (t * 4096 + i * 8) e).phys f :=
  fun _ _ => Bytes.writeWord_of_disjoint _ _ (by omega)

lemma zeroFrame_self (m : PhysMem) (f : Nat) {k : Nat} (hk : k < 4096) :
    (m.zeroFrame (f * 4096)).byte (f * 4096 + k) = 0 :=
  Bytes.store_of_mem m.byte (fun _ => 0) (by omega)

lemma same_zeroFrame (m : PhysMem) {g : Nat} (hg : g ≠ f) : Same m (m.zeroFrame (f * 4096)) g :=
  fun _ _ => Bytes.store_of_disjoint m.byte (fun _ => 0) (by omega)

/-! ### The invariant -/

/-- One more than the largest frame number the free list can hold. -/
def FrameAllocator.bound (fa : FrameAllocator) : Nat := fa.nframes % 2 ^ 32

/-- The refcount as far as the books go.  Nothing ever refers to the null frame. -/
def rcOf (pl : Pool) (f : Nat) : Nat := if f = 0 then 0 else pl.fa.refcount f

/-- Frames whose refcount means nothing: the control block, and any that saturated. -/
def Pinned (pl : Pool) (f : Nat) : Prop := f ≠ 0 ∧ pl.fa.refcount f = pinned

structure Good (pl : Pool) (roots : Finset Nat) (held : Nat → Nat) : Prop where
  bal : Balanced ptr 512 (cell pl.phys) 4 roots held (rcOf pl) (Pinned pl)
  nodup : pl.fa.freeList.Nodup
  free : ∀ f, f ∈ pl.fa.freeList ↔ f < pl.fa.bound ∧ pl.fa.refcount f = 0
  used : ∀ f, pl.fa.refcount f ≠ 0 → f < pl.fa.bound
  /-- The null frame and the control block. -/
  low : ∀ f, f < 8 → pl.fa.refcount f = pinned
  le : ∀ f, pl.fa.refcount f ≤ pinned
  /-- A frame that saturated is still counted. -/
  live : pl.fa.allocated
    = ((range pl.fa.bound).filter fun f => 8 ≤ f ∧ pl.fa.refcount f ≠ 0).card
  null : ∀ i, i < 512 → cell pl.phys 0 i = 0

def IsTable (m : PhysMem) (roots : Finset Nat) (f : Nat) : Prop :=
  ∃ r ∈ roots, 0 < total ptr 512 (cell m) (tabW f) 4 r

/-- Frame `f` is in use, but not for a table. -/
structure Data (pl : Pool) (roots : Finset Nat) (f : Nat) : Prop where
  used : pl.fa.refcount f ≠ 0
  notTable : ¬ IsTable pl.phys roots f

/-- What was data still is, with its refcount and bytes, and nothing else is shared. -/
structure Keeps (pl : Pool) (roots : Finset Nat) (pl' : Pool) (roots' : Finset Nat) : Prop where
  data : ∀ f, Data pl roots f →
    Data pl' roots' f ∧ pl'.fa.refcount f = pl.fa.refcount f ∧ Same pl.phys pl'.phys f
  le : ∀ f, pl'.fa.refcount f ≤ max 1 (pl.fa.refcount f)

lemma Keeps.refl (pl : Pool) (roots : Finset Nat) : Keeps pl roots pl roots :=
  ⟨fun _ hf => ⟨hf, rfl, fun _ _ => rfl⟩, fun _ => le_max_right ..⟩

lemma Keeps.trans {pl pl' pl'' : Pool} {roots roots' roots'' : Finset Nat}
    (h : Keeps pl roots pl' roots') (h' : Keeps pl' roots' pl'' roots'') :
    Keeps pl roots pl'' roots'' := by
  refine ⟨fun f hf => ?_, fun f => ?_⟩
  · have ⟨hd, hrc, hs⟩ := h.data f hf
    have ⟨hd', hrc', hs'⟩ := h'.data f hd
    exact ⟨hd', hrc'.trans hrc, hs.trans hs'⟩
  have h1 := h.le f
  have h2 := h'.le f
  omega

lemma isTable_iff {roots : Finset Nat} :
    ¬ IsTable m roots f ↔ ∀ r ∈ roots, total ptr 512 (cell m) (tabW f) 4 r = 0 := by
  simp [IsTable]

namespace Good

variable {pl pl' : Pool} {roots : Finset Nat} {held : Nat → Nat}

lemma bound_lt (_ : Good pl roots held) : pl.fa.bound < 2 ^ 32 := Nat.mod_lt _ (by omega)

variable {f : Nat}

section

variable (h : Good pl roots held)
include h

lemma frame_lt (hf : pl.fa.refcount f ≠ 0) : f < 2 ^ 32 := lt_trans (h.used f hf) h.bound_lt

lemma frameOf_eq (hf : pl.fa.refcount f ≠ 0) : pl.fa.frameOf (f * 4096) = some f := by
  have hlt : f < pl.fa.nframes := lt_of_lt_of_le (h.used f hf) (Nat.mod_le ..)
  simp [frameOf, hlt]

lemma refcountAt_eq (hf : pl.fa.refcount f ≠ 0) :
    pl.fa.refcountAt (f * 4096) = pl.fa.refcount f := by
  rw [refcountAt, h.frameOf_eq hf]

lemma refs_null : refs ptr 512 (cell pl.phys) 4 roots held 0 = 0 := by
  have hcount := h.bal.count 0 (fun hp => hp.1 rfl)
  simpa [rcOf] using hcount.symm

lemma used_of_refs (hf : 0 < refs ptr 512 (cell pl.phys) 4 roots held f) :
    f ≠ 0 ∧ pl.fa.refcount f ≠ 0 := by
  have h0 : f ≠ 0 := by
    rintro rfl
    have := h.refs_null
    omega
  refine ⟨h0, fun hrc => ?_⟩
  have hcount := h.bal.count f (fun hp => by simp [hp.2, pinned] at hrc)
  simp only [rcOf, h0, if_false, hrc] at hcount
  omega

lemma used_of_held (hf : 0 < held f) :
    f ≠ 0 ∧ pl.fa.refcount f ≠ 0 := h.used_of_refs (by unfold refs; omega)

lemma data_of_held (hf : 0 < held f) : Data pl roots f :=
  ⟨(h.used_of_held hf).2, isTable_iff.mpr (h.bal.not_table_of_held hf)⟩

lemma rc_of_table (hf : IsTable pl.phys roots f) : f ≠ 0 ∧ pl.fa.refcount f = 1 := by
  obtain ⟨r, hr, hpos⟩ := hf
  have ⟨hone, hnp⟩ := h.bal.single r hr f hpos
  obtain ⟨h0, -⟩ := h.used_of_refs (f := f) (by omega)
  have hcount := h.bal.count f hnp
  simp only [rcOf, h0, if_false] at hcount
  exact ⟨h0, by omega⟩

lemma not_table_of_free (hf : pl.fa.refcount f = 0) : ¬ IsTable pl.phys roots f := by
  intro ht
  have := (h.rc_of_table ht).2
  omega

end

end Good

/-! ### What a step leaves alone -/

def Steady (m : PhysMem) (roots : Finset Nat) (m' : PhysMem) : Prop :=
  ∀ f, IsTable m roots f → Same m m' f

namespace Steady

variable {m m' : PhysMem} {roots : Finset Nat}

variable {r : Nat}

section

variable (h : Steady m roots m')
include h

lemma agree (hr : r ∈ roots) :
    ∀ f, 0 < total ptr 512 (cell m) (tabW f) 4 r → ∀ i, i < 512 → cell m' f i = cell m f i :=
  fun f hf _ hi => (h f ⟨r, hr, hf⟩).cell hi

lemma look_eq (hr : r ∈ roots) {p : List Nat} (hp : ∀ i ∈ p, i < 512) (hlen : p.length ≤ 4) :
    look ptr (cell m') r p = look ptr (cell m) r p := look_congr (h.agree hr) hp hlen

lemma tableAt_eq (hr : r ∈ roots) {p : List Nat} (hp : ∀ i ∈ p, i < 512) (hlen : p.length ≤ 4) :
    tableAt ptr (cell m') r p = tableAt ptr (cell m) r p := tableAt_congr (h.agree hr) hp hlen

lemma isTable_iff (f : Nat) : IsTable m' roots f ↔ IsTable m roots f := by
  refine exists_congr fun r => and_congr_right fun hr => ?_
  rw [total_congr (h.agree hr)]

lemma trans {m'' : PhysMem} (h' : Steady m' roots m'') : Steady m roots m'' :=
  fun f hf => (h f hf).trans (h' f ((h.isTable_iff f).mpr hf))

end

end Steady

/-- A frame newly taken from the free list. -/
structure Fresh (pl pl' : Pool) (f : Nat) : Prop where
  low : 8 ≤ f
  lt : f < 2 ^ 32
  free : pl.fa.refcount f = 0
  rc : ∀ g, pl'.fa.refcount g = if g = f then 1 else pl.fa.refcount g
  zero : ∀ k, k < 4096 → pl'.phys.byte (f * 4096 + k) = 0
  same : ∀ g, g ≠ f → Same pl.phys pl'.phys g

namespace Fresh

variable {pl pl' : Pool} {roots : Finset Nat} {held : Nat → Nat} {f : Nat}

section

variable (h : Fresh pl pl' f)
include h

lemma rc_self : pl'.fa.refcount f = 1 := by rw [h.rc, if_pos rfl]

lemma rc_other {g : Nat} (hg : g ≠ f) :
    pl'.fa.refcount g = pl.fa.refcount g := by rw [h.rc, if_neg hg]

lemma ne_of_used {g : Nat} (hg : pl.fa.refcount g ≠ 0) : g ≠ f := by
  rintro rfl
  exact hg h.free

lemma steady (hg : Good pl roots held) : Steady pl.phys roots pl'.phys := by
  intro t ht
  refine h.same t (h.ne_of_used ?_)
  have := (hg.rc_of_table ht).2
  omega

lemma le (g : Nat) : pl'.fa.refcount g ≤ max 1 (pl.fa.refcount g) := by
  rw [h.rc g]
  split <;> omega

lemma keeps (hg : Good pl roots held) : Keeps pl roots pl' roots := by
  refine ⟨fun g hd => ?_, h.le⟩
  have hne := h.ne_of_used hd.used
  have hrc := h.rc_other hne
  refine ⟨⟨by rw [hrc]; exact hd.used, ?_⟩, hrc, h.same g hne⟩
  rw [(h.steady hg).isTable_iff]
  exact hd.notTable

lemma cell_zero {i : Nat} (hi : i < 512) : cell pl'.phys f i = 0 := by
  refine Bytes.readWord_eq_zero fun k hk => ?_
  have hbyte := h.zero (i * 8 + k) (by omega)
  simpa only [add_assoc] using hbyte

end

end Fresh

/-! ### The steps -/

lemma card_used (rc rc' : Nat → Nat) {b x : Nat} (hx : x < b) (hlow : 8 ≤ x)
    (h0 : rc x = 0) (h1 : rc' x ≠ 0) (hother : ∀ f, f ≠ x → (rc' f = 0 ↔ rc f = 0)) :
    ((range b).filter fun f => 8 ≤ f ∧ rc' f ≠ 0).card
      = ((range b).filter fun f => 8 ≤ f ∧ rc f ≠ 0).card + 1 := by
  have hins : ((range b).filter fun f => 8 ≤ f ∧ rc' f ≠ 0)
      = insert x ((range b).filter fun f => 8 ≤ f ∧ rc f ≠ 0) := by
    ext f
    by_cases hfx : f = x
    · subst hfx
      simp [hx, hlow, h1]
    · simp [hfx, hother f hfx]
  rw [hins, card_insert_of_notMem (by simp [h0])]

namespace Good

variable {pl pl' : Pool} {roots : Finset Nat} {held : Nat → Nat}

lemma alloc (h : Good pl roots held) {pa : Nat} (ha : pl.alloc = some (pa, pl')) :
    ∃ f, pa = f * 4096 ∧ Fresh pl pl' f ∧ Good pl' roots (bump held f) := by
  unfold Pool.alloc at ha
  split at ha
  · simp at ha
  cases hl : pl.fa.freeList with
  | nil => simp [hl] at ha
  | cons f rest =>
    simp only [hl, Option.some.injEq, Prod.mk.injEq] at ha
    obtain ⟨rfl, rfl⟩ := ha
    have ⟨hlt, hfree⟩ := (h.free f).mp (by simp [hl])
    have hlow : 8 ≤ f := by
      by_contra hc
      have := h.low f (by omega)
      simp [this, pinned] at hfree
    have hnd : f ∉ rest ∧ rest.Nodup := by simpa [hl] using h.nodup
    have hfresh : Fresh pl ⟨{ pl.fa.setRefcount f 1 with
        freeList := rest, allocated := pl.fa.allocated + 1 },
        pl.phys.zeroFrame (f * 4096)⟩ f := {
      low := hlow
      lt := lt_trans hlt h.bound_lt
      free := hfree
      rc := fun _ => rfl
      zero := fun k hk => zeroFrame_self pl.phys f hk
      same := fun g hg => same_zeroFrame pl.phys hg }
    refine ⟨f, rfl, hfresh, ?_⟩
    have h0 : f ≠ 0 := by omega
    have hbal := (h.bal.congr_store fun r hr => (hfresh.steady h).agree hr)
    refine {
      bal := ?_, nodup := hnd.2, free := ?_, used := ?_, low := ?_, le := ?_, live := ?_,
      null := ?_ }
    · refine hbal.take (fun r hr => ?_) (fun g hg => ?_) (fun _ => ?_)
      · rw [total_congr ((hfresh.steady h).agree hr)]
        exact isTable_iff.mp (h.not_table_of_free hfree) r hr
      · simp [rcOf, Pinned, setRefcount, hg]
      · simp [rcOf, Pinned, setRefcount, h0, hfree, pinned]
    · intro g
      by_cases hg : g = f
      · subst hg
        simp [setRefcount, hnd.1]
      have hmem := h.free g
      rw [hl, List.mem_cons] at hmem
      simpa [setRefcount, bound, hg] using hmem
    · intro g hg
      by_cases hgf : g = f
      · subst hgf; exact hlt
      · exact h.used g (by simpa [setRefcount, hgf] using hg)
    · intro g hg
      have hgf : g ≠ f := by omega
      simpa [setRefcount, hgf] using h.low g hg
    · intro g
      by_cases hgf : g = f
      · simp [setRefcount, hgf, pinned]
      · simpa [setRefcount, hgf] using h.le g
    · refine (congrArg (· + 1) h.live).trans (card_used pl.fa.refcount _ hlt hlow hfree ?_ ?_).symm
      · simp [setRefcount]
      intro g hg
      simp [setRefcount, hg]
    intro i hi
    have hz : f ≠ 0 := h0
    rw [(hfresh.same 0 (Ne.symm hz)).cell hi]
    exact h.null i hi

variable {f : Nat}

lemma free_rc (h : Good pl roots held) (hf : pl.fa.refcount f ≠ 0) (g : Nat) :
    (pl.free (f * 4096)).fa.refcount g
      = if g = f ∧ pl.fa.refcount f ≠ pinned then pl.fa.refcount f - 1 else pl.fa.refcount g := by
  simp only [Pool.free, FrameAllocator.free, FrameAllocator.decref, h.frameOf_eq hf]
  by_cases hp : pl.fa.refcount f = pinned
  · simp [hp]
  by_cases h1 : pl.fa.refcount f = 1
  · by_cases hg : g = f <;> simp [FrameAllocator.setRefcount, hg, h1, pinned]
  · by_cases hg : g = f <;> simp [FrameAllocator.setRefcount, hp, hf, h1, hg]

lemma free_list (h : Good pl roots held) (hf : pl.fa.refcount f ≠ 0) :
    (pl.free (f * 4096)).fa.freeList
        = (if pl.fa.refcount f = 1 then [f] else []) ++ pl.fa.freeList ∧
      (pl.free (f * 4096)).fa.allocated
        = pl.fa.allocated - (if pl.fa.refcount f = 1 then 1 else 0) ∧
      (pl.free (f * 4096)).fa.bound = pl.fa.bound := by
  simp only [Pool.free, FrameAllocator.free, FrameAllocator.decref, h.frameOf_eq hf]
  by_cases hp : pl.fa.refcount f = pinned
  · simp [hp, pinned]
  by_cases h1 : pl.fa.refcount f = 1
  · simp [FrameAllocator.setRefcount, FrameAllocator.bound, h1, pinned]
  · simp [FrameAllocator.setRefcount, FrameAllocator.bound, hp, hf, h1]

section

variable (h : Good pl roots (bump held f))
include h

lemma release_rc (g : Nat) : (pl.free (f * 4096)).fa.refcount g
      = if g = f ∧ pl.fa.refcount f ≠ pinned then pl.fa.refcount f - 1 else pl.fa.refcount g :=
  free_rc h (h.used_of_held (bump_self_pos held f)).2 g

lemma release_other {g : Nat} (hg : g ≠ f) :
    (pl.free (f * 4096)).fa.refcount g = pl.fa.refcount g := by
  simp [release_rc h, hg]

lemma release_self : (pl.free (f * 4096)).fa.refcount f =
    if pl.fa.refcount f = pinned then pinned else pl.fa.refcount f - 1 := by
  rw [release_rc h]
  by_cases hp : pl.fa.refcount f = pinned <;> simp [hp]

/-- A pinned frame keeps its count, and what is held of it is no matter. -/
lemma release_bal : Balanced ptr 512 (cell pl.phys) 4 roots held (rcOf (pl.free (f * 4096)))
    (Pinned (pl.free (f * 4096))) := by
  have ⟨h0, hf⟩ := h.used_of_held (bump_self_pos held f)
  have hself := release_self h
  have hle := h.le f
  by_cases hp : pl.fa.refcount f = pinned
  · have hsame : ∀ g, (pl.free (f * 4096)).fa.refcount g = pl.fa.refcount g := by
      intro g
      simp [release_rc h, hp]
    have hrcOf : rcOf (pl.free (f * 4096)) = rcOf pl := by
      funext g; simp [rcOf, hsame]
    have hpin : Pinned (pl.free (f * 4096)) = Pinned pl := by
      funext g; simp [Pinned, hsame]
    rw [hrcOf, hpin]
    refine h.bal.congr_held fun g hg => ?_
    have hgf : f ≠ g := by
      rintro rfl
      exact hg ⟨h0, hp⟩
    simp [bump, hgf]
  · have hpin : Pinned (pl.free (f * 4096)) = Pinned pl := by
      funext g
      by_cases hgf : g = f
      · subst hgf
        rw [if_neg hp] at hself
        have hne : (pl.free (g * 4096)).fa.refcount g ≠ pinned := by omega
        simp [Pinned, hp, hne]
      · simp [Pinned, release_other h hgf]
    rw [hpin]
    refine h.bal.give (fun g hg => ?_) (fun _ => ?_)
    · simp [rcOf, release_other h hg]
    · simp [rcOf, h0, hself, hp]

lemma release_live : (pl.free (f * 4096)).fa.allocated =
    ((range (pl.free (f * 4096)).fa.bound).filter fun g =>
      8 ≤ g ∧ (pl.free (f * 4096)).fa.refcount g ≠ 0).card := by
  have ⟨_, hf⟩ := h.used_of_held (bump_self_pos held f)
  have ⟨_, halloc, hbound⟩ := free_list h hf
  have hself := release_self h
  rw [halloc, hbound, h.live]
  by_cases h1 : pl.fa.refcount f = 1
  · have hlow : 8 ≤ f := by
      by_contra hc
      have := h.low f (by omega)
      simp [this, pinned] at h1
    have hzero : (pl.free (f * 4096)).fa.refcount f = 0 := by
      simp [hself, h1, pinned]
    have hcard := card_used (pl.free (f * 4096)).fa.refcount pl.fa.refcount
      (h.used f hf) hlow hzero hf fun g hg => by rw [release_other h hg]
    rw [if_pos h1]
    omega
  rw [if_neg h1, Nat.sub_zero]
  congr 1
  refine filter_congr fun g _ => ?_
  by_cases hgf : g = f
  · subst hgf
    have hne : (pl.free (g * 4096)).fa.refcount g ≠ 0 := by
      rw [hself]
      split
      · simp [pinned]
      · omega
    simp [hf, hne]
  · rw [release_other h hgf]

lemma release : Good (pl.free (f * 4096)) roots held := by
  have ⟨_, hf⟩ := h.used_of_held (bump_self_pos held f)
  have ⟨hlist, _, hbound⟩ := free_list h hf
  have hself := release_self h
  have hle := h.le f
  refine {
    bal := release_bal h, nodup := ?_, free := ?_, used := ?_, low := ?_, le := ?_,
    live := release_live h, null := h.null }
  · rw [hlist]
    split
    · have hnot : f ∉ pl.fa.freeList := fun hm => hf ((h.free f).mp hm).2
      simpa using ⟨hnot, h.nodup⟩
    · simpa using h.nodup
  · intro g
    rw [hlist, hbound]
    by_cases hgf : g = f
    · subst hgf
      have hlt := h.used g hf
      have hnot : g ∉ pl.fa.freeList := fun hm => hf ((h.free g).mp hm).2
      rw [hself]
      by_cases h1 : pl.fa.refcount g = 1
      · simp [h1, hlt, pinned]
      simp only [h1, if_false, List.nil_append, hnot, false_iff, not_and]
      intro _
      split
      · simp [pinned]
      · omega
    · have hmem := h.free g
      rw [release_other h hgf]
      split <;> simpa [hgf] using hmem
  · intro g hg
    rw [hbound]
    by_cases hgf : g = f
    · subst hgf; exact h.used g hf
    · exact h.used g (by rwa [release_other h hgf] at hg)
  · intro g hg
    by_cases hgf : g = f
    · subst hgf
      rw [hself, if_pos (h.low g hg)]
    · rw [release_other h hgf]; exact h.low g hg
  · intro g
    by_cases hgf : g = f
    · subst hgf
      rw [hself]
      split <;> omega
    · rw [release_other h hgf]; exact h.le g

lemma release_le (g : Nat) : (pl.free (f * 4096)).fa.refcount g ≤ pl.fa.refcount g := by
  rw [h.release_rc g]
  split
  next hc =>
    rw [hc.1]
    omega
  · rfl

lemma release_pin (g : Nat) :
    (pl.free (f * 4096)).fa.refcount g = pinned ↔ pl.fa.refcount g = pinned := by
  rw [h.release_rc g]
  have hle := h.le f
  by_cases hc : g = f ∧ pl.fa.refcount f ≠ pinned
  · rw [if_pos hc, hc.1]
    refine ⟨fun hp => ?_, fun hp => absurd hp hc.2⟩
    have := hc.2
    omega
  · rw [if_neg hc]

end

section

variable (h : Good pl roots held)
include h

lemma retain (hd : Data pl roots f) (h0 : f ≠ 0) :
    Good (pl.incref (f * 4096)) roots (bump held f) := by
  have hf := hd.used
  have hother : ∀ g, g ≠ f →
      (pl.incref (f * 4096)).fa.refcount g = pl.fa.refcount g := by
    intro g hg
    simp only [Pool.incref, incref, h.frameOf_eq hf]
    split <;> simp [setRefcount, hg]
  have hself : (pl.incref (f * 4096)).fa.refcount f = min (pl.fa.refcount f + 1) pinned := by
    simp only [Pool.incref, incref, h.frameOf_eq hf]
    split
    · omega
    · simp [setRefcount]
  have hne : (pl.incref (f * 4096)).fa.refcount f ≠ 0 := by
    rw [hself]; simp only [pinned]; omega
  have hrest : (pl.incref (f * 4096)).fa.freeList = pl.fa.freeList ∧
      (pl.incref (f * 4096)).fa.allocated = pl.fa.allocated ∧
      (pl.incref (f * 4096)).fa.bound = pl.fa.bound := by
    simp only [Pool.incref, incref, h.frameOf_eq hf]
    split <;> simp [setRefcount, bound]
  obtain ⟨hlist, halloc, hbound⟩ := hrest
  refine {
    bal := ?_, nodup := hlist ▸ h.nodup, free := ?_, used := ?_, low := ?_, le := ?_,
    live := ?_, null := h.null }
  · refine h.bal.take (isTable_iff.mp hd.notTable) (fun g hg => ?_) (fun hp => ?_)
    · simp [rcOf, Pinned, hother g hg]
    simp only [Pinned, hself, rcOf, h0, if_false, ne_eq, not_false_eq_true, true_and] at hp ⊢
    omega
  · intro g
    rw [hlist, hbound]
    by_cases hgf : g = f
    · subst hgf
      rw [h.free g]
      simp [hf, hne]
    · rw [hother g hgf]; exact h.free g
  · intro g hg
    rw [hbound]
    by_cases hgf : g = f
    · subst hgf; exact h.used g hf
    · exact h.used g (by rwa [hother g hgf] at hg)
  · intro g hg
    by_cases hgf : g = f
    · subst hgf
      rw [hself, h.low g hg]
      simp
    · rw [hother g hgf]; exact h.low g hg
  · intro g
    by_cases hgf : g = f
    · subst hgf
      rw [hself]; omega
    · rw [hother g hgf]; exact h.le g
  rw [halloc, hbound, h.live]
  congr 1
  refine filter_congr fun g _ => ?_
  by_cases hgf : g = f
  · subst hgf
    simp [hf, hne]
  · rw [hother g hgf]

lemma retain_rc (hd : Data pl roots f) (g : Nat) : (pl.incref (f * 4096)).fa.refcount g
      = if g = f then min (pl.fa.refcount f + 1) pinned else pl.fa.refcount g := by
  simp only [Pool.incref, incref, h.frameOf_eq hd.used]
  by_cases hgf : g = f
  · subst hgf
    split
    · simp; omega
    · simp [setRefcount]
  · split <;> simp [setRefcount, hgf]

lemma fill {m : PhysMem} (hm : Steady pl.phys roots m)
    (h0 : Same pl.phys m 0) : Good { pl with phys := m } roots held where
  bal := h.bal.congr_store fun _ hr => hm.agree hr
  nodup := h.nodup
  free := h.free
  used := h.used
  low := h.low
  le := h.le
  live := h.live
  null := fun i hi => (h0.cell hi).trans (h.null i hi)

lemma setUseReserve (on : Bool) : Good (pl.setUseReserve on) roots held :=
  ⟨h.bal, h.nodup, h.free, h.used, h.low, h.le, h.live, h.null⟩

lemma congr_held {held' : Nat → Nat}
    (hh : ∀ f, pl.fa.refcount f ≠ pinned ∨ f = 0 → held' f = held f) : Good pl roots held' := by
  refine { h with bal := h.bal.congr_held fun f hf => hh f ?_ }
  by_cases h0 : f = 0
  · exact .inr h0
  · exact .inl fun hp => hf ⟨h0, hp⟩

lemma rewrite {m : PhysMem} (hm : ∀ f i, i < 512 → ptr (cell m f i) = ptr (cell pl.phys f i))
    (h0 : Same pl.phys m 0) : Good { pl with phys := m } roots held where
  bal := h.bal.congr_ptr hm
  nodup := h.nodup
  free := h.free
  used := h.used
  low := h.low
  le := h.le
  live := h.live
  null := fun i hi => (h0.cell hi).trans (h.null i hi)

end

end Good

/-! ### Storing an entry -/

structure Slot (m : PhysMem) (roots : Finset Nat) (r : Nat) (q : List Nat) (t i : Nat) : Prop where
  root : r ∈ roots
  lt : i < 512
  path : ∀ j ∈ q, j < 512
  len : q.length ≤ 3
  at_table : tableAt ptr (cell m) r q = some t

namespace Slot

variable {pl : Pool} {roots : Finset Nat} {held : Nat → Nat} {r t i : Nat} {q : List Nat}
  {e : BitVec 64}

section

variable (hs : Slot pl.phys roots r q t i)
include hs

lemma level : q.length + (3 - q.length + 1) = 4 := by
  have := hs.len
  omega

lemma counted : 0 < total ptr 512 (cell pl.phys) (tabW t) 4 r :=
  tab_of_tableAt hs.path (by have := hs.len; omega) hs.at_table

lemma isTable : IsTable pl.phys roots t :=
  ⟨r, hs.root, hs.counted⟩

lemma once (h : Good pl roots held) :
    total ptr 512 (cell pl.phys) (tabW t) (q.length + (3 - q.length + 1)) r = 1 := by
  rw [hs.level]
  exact (h.bal.once hs.root hs.counted).1

lemma only (h : Good pl roots held) {s : Nat} (hmem : s ∈ roots) (hne : s ≠ r) :
    total ptr 512 (cell pl.phys) (tabW t) 4 s = 0 := by
  have h0 := (h.bal.once hs.root hs.counted).2.2.2 s hmem hne
  rw [total_ref] at h0
  omega

lemma same (e : BitVec 64) {f : Nat} (hf : f ≠ t) :
    Same pl.phys (pl.store (t * 4096 + i * 8) e).phys f := same_store pl t hs.lt e hf

lemma look_store (h : Good pl roots held) (e : BitVec 64)
    {s : Nat} (hmem : s ∈ roots) {p : List Nat} (hp : ∀ j ∈ p, j < 512) (hlen : p.length ≤ 4) :
    look ptr (cell (pl.store (t * 4096 + i * 8) e).phys) s p = if s = r ∧ q ++ [i] <+: p then
          follow ptr (cell (pl.store (t * 4096 + i * 8) e).phys) e (p.drop (q.length + 1))
        else look ptr (cell pl.phys) s p := by
  have hw := wrote_store pl t hs.lt e
  by_cases hsr : s = r
  · subst hsr
    rw [look_write hw hs.lt hs.path hs.at_table (hs.once h) hp (by rw [hs.level]; exact hlen)]
    simp
  · rw [if_neg (fun hc => hsr hc.1)]
    exact look_congr (hw.agree (hs.only h hmem hsr)) hp hlen

end

end Slot

/-- What may be linked at the end of `q`: a leaf, or an empty table of its own. -/
def Linkable (pl : Pool) (q : List Nat) (e : BitVec 64) : Prop :=
  q.length = 3 ∨ ∀ x, ptr e = some x → pl.fa.refcount x = 1 ∧ ∀ j, j < 512 → cell pl.phys x j = 0

namespace Good

variable {pl : Pool} {roots : Finset Nat} {held : Nat → Nat} {r t i : Nat} {q : List Nat}
  {e : BitVec 64}

section

variable (h : Good pl roots (bumpEntry ptr held e)) (hs : Slot pl.phys roots r q t i)
include h hs

lemma bare_new (hnew : Linkable pl q e) :
    Bare ptr 512 (cell (pl.store (t * 4096 + i * 8) e).phys) (3 - q.length) e := by
  intro x hx
  rcases hnew with hleaf | htab
  · exact .inl (by omega)
  refine .inr fun j hj => ?_
  have hxt : x ≠ t := by
    -- the table is referred to by its tree alone, so nobody holds it
    rintro rfl
    have hheld := (h.bal.once hs.root hs.counted).2.2.1
    simp [bumpEntry, hx] at hheld
  rw [(wrote_store pl t hs.lt e).other hj (.inl hxt), (htab x hx).2 j hj]
  simp

/-- **Storing an entry.** A held reference goes in, and the one that was there comes out. -/
lemma link (hold : Bare ptr 512 (cell pl.phys) (3 - q.length) (cell pl.phys t i))
    (hnew : Linkable pl q e) :
    Good (pl.store (t * 4096 + i * 8) e) roots (bumpEntry ptr held (cell pl.phys t i)) := by
  have ht0 : t ≠ 0 := (h.rc_of_table hs.isTable).1
  refine { h with
    bal := ?_
    null := fun j hj => ((hs.same e (Ne.symm ht0)).cell hj).trans (h.null j hj) }
  have hbal := h.bal
  rw [← hs.level] at hbal ⊢
  refine hbal.link hs.root (wrote_store pl t hs.lt e) hs.lt hs.path hs.at_table hold
    (h.bare_new hs hnew) fun hL x hx => ?_
  obtain ⟨hrc, -⟩ := (hnew.resolve_left (by have := hs.len; omega)) x hx
  obtain ⟨hx0, -⟩ := h.used_of_held (f := x) (by simp [bumpEntry, hx])
  simp [rcOf, Pinned, hx0, hrc, pinned]

lemma isTable_link
    (hnew : Linkable pl q e) {f : Nat} (hf : IsTable (pl.store (t * 4096 + i * 8) e).phys roots f) :
    IsTable pl.phys roots f ∨ q.length ≠ 3 ∧ ptr e = some f := by
  obtain ⟨s, hmem, hpos⟩ := hf
  have hw := wrote_store pl t hs.lt e
  by_cases hsr : s = r
  · subst hsr
    rcases Nat.eq_zero_or_pos (total ptr 512 (cell pl.phys) (tabW f) 4 s) with h0 | hold
    · have htot := total_write (w := tabW f) hw hs.lt hs.path hs.at_table (hs.once h)
      rw [hs.level, (h.bare_new hs hnew).below_eq, h0] at htot
      have hb : 0 < (ptr e).elim 0 (tabW f (3 - q.length)) := by omega
      cases hx : ptr e with
      | none => simp [hx] at hb
      | some x =>
        rw [hx] at hb
        have hxf : 3 - q.length ≠ 0 ∧ x = f := by
          by_contra hc
          simp [tabW, hc] at hb
        exact .inr ⟨by omega, by rw [hxf.2]⟩
    · exact .inl ⟨s, hmem, hold⟩
  · rw [total_congr (hw.agree (hs.only h hmem hsr))] at hpos
    exact .inl ⟨s, hmem, hpos⟩

lemma keeps_link
    (hnew : Linkable pl q e) {f : Nat} (hf : Data pl roots f) (hne : q.length = 3 ∨ ptr e ≠ some f) :
    Data (pl.store (t * 4096 + i * 8) e) roots f ∧
      Same pl.phys (pl.store (t * 4096 + i * 8) e).phys f := by
  have hft : f ≠ t := by
    rintro rfl
    exact hf.notTable hs.isTable
  refine ⟨⟨hf.used, fun hc => ?_⟩, hs.same e hft⟩
  rcases h.isTable_link hs hnew hc with ht | ⟨hlen, hp⟩
  · exact hf.notTable ht
  rcases hne with h3 | hp'
  · exact hlen h3
  · exact hp' hp

end

end Good

end NixVm
