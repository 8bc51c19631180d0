/-
Copying a tree, write-protecting one, and tearing one down.

These are the three recursions over whole trees, and each is read as what it does to the leaves.
`cloneSubtree` builds read-only leaves for those of the other tree; when the pool runs out it
leaves a part of that, which `destroy` undoes.
-/
import NixVm.Proofs.Walk

namespace NixVm

open Finset Radix Pte

/-! ### Tearing down -/

lemma sum_range_list (g : Nat → Nat) (n : Nat) :
    ∑ i ∈ range n, g i = ((List.range n).map g).sum := rfl

def slotRefs (m : PhysMem) (L t : Nat) (xs : List Nat) (f : Nat) : Nat :=
  (xs.map fun i => below ptr 512 (cell m) (refW f) L (cell m t i)).sum

def freeSlot (rec : Nat → Pool → Pool) (leafLevel : Bool) (table : Nat) (pl : Pool)
    (idx : Nat) : Pool :=
  let e := entry pl.phys table idx
  if !Pte.present e then pl
  else if leafLevel then pl.free (Pte.addr e)
  else (rec (Pte.addr e) pl).free (Pte.addr e)

/-- What frees references without touching memory or pinned frames. -/
structure Freed (pl : Pool) (roots : Finset Nat) (held : Nat → Nat) (pl' : Pool) : Prop where
  good : Good pl' roots held
  phys_eq : pl'.phys = pl.phys
  pin : ∀ f, pl'.fa.refcount f = pinned ↔ pl.fa.refcount f = pinned

variable {pl : Pool} {roots : Finset Nat} {held : Nat → Nat}

lemma Freed.release {x : Nat}
    (h : Good pl roots (bump held x)) : Freed pl roots held (pl.free (x * 4096)) :=
  ⟨h.release, rfl, h.release_pin⟩

lemma Freed.trans {pl1 pl2 : Pool} {held' : Nat → Nat}
    (h : Freed pl roots held pl1) (h' : Freed pl1 roots held' pl2) : Freed pl roots held' pl2 :=
  ⟨h'.good, h'.phys_eq.trans h.phys_eq, fun f => (h'.pin f).trans (h.pin f)⟩

lemma freeSlot_spec {L t i : Nat} {rec : Nat → Pool → Pool}
    (hrec : ∀ {pl : Pool} {held : Nat → Nat} (x : Nat), L ≠ 0 →
      Good pl roots (fun f => held f + slotRefs pl.phys (L - 1) x (List.range 512) f) →
      Freed pl roots held (rec (x * 4096) pl))
    (h : Good pl roots fun f => held f + below ptr 512 (cell pl.phys) (refW f) L (cell pl.phys t i)) :
    Freed pl roots held (freeSlot rec (L == 0) (t * 4096) pl i) := by
  change Freed pl roots held (if !present (cell pl.phys t i) then pl
    else if (L == 0) = true then pl.free (addr (cell pl.phys t i))
    else (rec (addr (cell pl.phys t i)) pl).free (addr (cell pl.phys t i)))
  cases hx : ptr (cell pl.phys t i) with
  | none =>
    rw [ptr_eq_none.mp hx, if_pos (by rfl)]
    simp only [below, hx, Option.elim_none, add_zero] at h
    exact ⟨h, rfl, fun _ => Iff.rfl⟩
  | some x =>
    obtain ⟨hpres, haddr⟩ := ptr_eq_some.mp hx
    simp only [below, hx, Option.elim_some] at h
    simp only [hpres, haddr, Bool.not_true, Bool.false_eq_true, if_false]
    cases L with
    | zero =>
      have hh : (fun f => held f + total ptr 512 (cell pl.phys) (refW f) 0 x) = bump held x := by
        funext f
        simp [refW, bump]
      exact Freed.release h
    | succ L =>
      have hh : (fun f => held f + total ptr 512 (cell pl.phys) (refW f) (L + 1) x)
          = fun f => bump held x f + slotRefs pl.phys L x (List.range 512) f := by
        funext f
        rw [total_succ, sum_range_list]
        simp only [refW, bump, slotRefs]
        omega
      rw [hh] at h
      have hsub := hrec x (by omega) h
      exact hsub.trans (Freed.release hsub.good)

lemma freeSlots_spec {L t : Nat} (rec : Nat → Pool → Pool)
    (hrec : ∀ {pl : Pool} {held : Nat → Nat} (x : Nat), L ≠ 0 →
      Good pl roots (fun f => held f + slotRefs pl.phys (L - 1) x (List.range 512) f) →
      Freed pl roots held (rec (x * 4096) pl)) (xs : List Nat) : ∀ {pl : Pool} {held : Nat → Nat},
      Good pl roots (fun f => held f + slotRefs pl.phys L t xs f) →
      Freed pl roots held (xs.foldl (freeSlot rec (L == 0) (t * 4096)) pl) := by
  induction xs with
  | nil =>
    intro pl held h
    exact ⟨by simpa [slotRefs] using h, rfl, fun _ => Iff.rfl⟩
  | cons i xs ih =>
    intro pl held h
    have hh : (fun f => held f + slotRefs pl.phys L t (i :: xs) f)
        = fun f => (held f + slotRefs pl.phys L t xs f)
          + below ptr 512 (cell pl.phys) (refW f) L (cell pl.phys t i) := by
      funext f
      simp only [slotRefs, List.map_cons, List.sum_cons]
      omega
    rw [hh] at h
    have hone := freeSlot_spec hrec h
    have hgood := hone.good
    rw [← hone.phys_eq] at hgood
    exact hone.trans (ih hgood)

lemma freeSubtree_spec (L : Nat) : ∀ {pl : Pool} {held : Nat → Nat} (t : Nat),
      Good pl roots (fun f => held f + slotRefs pl.phys L t (List.range 512) f) →
      Freed pl roots held (freeSubtree (L + 1) (t * 4096) pl) := by
  induction L with
  | zero =>
    intro pl held t h
    exact freeSlots_spec (L := 0) (freeSubtree 0) (fun _ hne => absurd rfl hne) _ h
  | succ L ih =>
    intro pl held t h
    exact freeSlots_spec (L := L + 1) (freeSubtree (L + 1)) (fun x _ h => ih x h) _ h

/-- **`destroy`.**  Every reference of the tree is given back. -/
lemma destroy_spec {r : Nat}
    {s : AddrSpace} (h : Good pl roots held) (hr : r ∈ roots) (hs : s.pml4 = r * 4096) :
    Freed pl (roots.erase r) held (s.destroy pl) := by
  have hr0 : s.pml4 ≠ 0 := by
    have hroot := (h.rc_of_table (f := r) ⟨r, hr, tab_self 3 r⟩).1
    rw [hs]; omega
  have herase : Good pl (roots.erase r)
      (fun f => held f + total ptr 512 (cell pl.phys) (refW f) 4 r) :=
    { h with bal := h.bal.eraseRoot hr }
  have hh : (fun f => held f + total ptr 512 (cell pl.phys) (refW f) 4 r)
      = fun f => bump held r f + slotRefs pl.phys 3 r (List.range 512) f := by
    funext f
    rw [total_succ, sum_range_list]
    simp only [refW, bump, slotRefs]
    omega
  rw [hh] at herase
  have hsub := freeSubtree_spec 3 r herase
  unfold AddrSpace.destroy
  rw [if_neg hr0, hs]
  exact hsub.trans (Freed.release hsub.good)

/-! ### Copying

The tree at `x` is being built to match the one at `r`.  `Cloned` is what holds between
two points of that: nothing but the paths in `S` of the tree at `x` has changed, no
other table was written, and the count of a frame in use went up only if `r` has a leaf
for it, and by no more than `b`.
-/

def Full (p : List Nat) : Prop := p.length = 4 ∧ ∀ j ∈ p, j < 512

def HasLeaf (m : PhysMem) (r f : Nat) : Prop :=
  ∃ p e, Full p ∧ look ptr (cell m) r p = some e ∧ ptr e = some f

structure Cloned (pl : Pool) (roots : Finset Nat) (held : Nat → Nat) (r x : Nat)
    (S : List Nat → Prop) (b : Nat → Nat) (pl' : Pool) : Prop where
  good : Good pl' roots held
  others : ∀ s ∈ roots, s ≠ x → ∀ f, 0 < total ptr 512 (cell pl.phys) (tabW f) 4 s →
    Same pl.phys pl'.phys f
  frame : ∀ p, (∀ j ∈ p, j < 512) → p.length ≤ 4 → ¬ S p →
    look ptr (cell pl'.phys) x p = look ptr (cell pl.phys) x p
  data : ∀ f, Data pl roots f → Data pl' roots f ∧ Same pl.phys pl'.phys f
  rc : ∀ f, pl.fa.refcount f ≠ 0 → ¬ HasLeaf pl.phys r f → pl'.fa.refcount f = pl.fa.refcount f
  up : ∀ f, pl.fa.refcount f ≠ 0 → pl.fa.refcount f ≤ pl'.fa.refcount f ∧
    pl'.fa.refcount f ≤ pl.fa.refcount f + b f
  fresh : ∀ f, pl.fa.refcount f = 0 → ¬ HasLeaf pl.phys r f → pl'.fa.refcount f ≤ 1

namespace Cloned

variable {pl pl1 pl2 : Pool} {roots : Finset Nat} {held : Nat → Nat} {r x : Nat}
  {S T : List Nat → Prop} {b b' : Nat → Nat}

lemma refl (h : Good pl roots held) : Cloned pl roots held r x S b pl :=
  ⟨h, fun _ _ _ _ _ _ _ => rfl, fun _ _ _ _ => rfl, fun _ hd => ⟨hd, fun _ _ => rfl⟩,
    fun _ _ _ => rfl, fun _ _ => ⟨le_rfl, Nat.le_add_right ..⟩,
    fun _ hf _ => by omega⟩

section

variable (h : Cloned pl roots held r x S b pl1)
include h

lemma mono (hst : ∀ p, S p → T p) (hb : ∀ f, b f ≤ b' f) : Cloned pl roots held r x T b' pl1 :=
  { h with
    frame := fun p hp hl hn => h.frame p hp hl fun hs => hn (hst p hs)
    up := fun f hf => ⟨(h.up f hf).1, le_trans (h.up f hf).2 (Nat.add_le_add_left (hb f) _)⟩ }

variable {p : List Nat}

lemma look_other {s : Nat} (hs : s ∈ roots) (hne : s ≠ x)
    (hp : ∀ j ∈ p, j < 512) (hlen : p.length ≤ 4) :
    look ptr (cell pl1.phys) s p = look ptr (cell pl.phys) s p :=
  look_congr (fun f hf _ hi => (h.others s hs hne f hf).cell hi) hp hlen

lemma tableAt_other {s : Nat} (hs : s ∈ roots)
    (hne : s ≠ x) (hp : ∀ j ∈ p, j < 512) (hlen : p.length ≤ 4) :
    tableAt ptr (cell pl1.phys) s p = tableAt ptr (cell pl.phys) s p :=
  tableAt_congr (fun f hf _ hi => (h.others s hs hne f hf).cell hi) hp hlen

lemma tableAt_self (hp : ∀ j ∈ p, j < 512) (hlen : p.length ≤ 4) (hn : ¬ S p) :
    tableAt ptr (cell pl1.phys) x p = tableAt ptr (cell pl.phys) x p := by
  by_cases hne : p = []
  · subst hne; rfl
  · rw [tableAt_eq_look hne, tableAt_eq_look hne, h.frame p hp hlen hn]

lemma hasLeaf_iff (hr : r ∈ roots) (hne : r ≠ x) (f : Nat) :
    HasLeaf pl1.phys r f ↔ HasLeaf pl.phys r f := by
  refine exists_congr fun p => exists_congr fun e => and_congr_right fun hp => ?_
  rw [h.look_other hr hne hp.2 (by rw [hp.1])]

lemma trans (h' : Cloned pl1 roots held r x S b' pl2)
    (hr : r ∈ roots) (hne : r ≠ x) : Cloned pl roots held r x S (fun f => b f + b' f) pl2 where
  good := h'.good
  others := by
    intro s hs hsx f hf
    refine (h.others s hs hsx f hf).trans (h'.others s hs hsx f ?_)
    rwa [total_congr fun g hg i hi => (h.others s hs hsx g hg).cell hi]
  frame := fun p hp hl hn => (h'.frame p hp hl hn).trans (h.frame p hp hl hn)
  data := by
    intro f hd
    obtain ⟨hd1, hs1⟩ := h.data f hd
    obtain ⟨hd2, hs2⟩ := h'.data f hd1
    exact ⟨hd2, hs1.trans hs2⟩
  rc := by
    intro f hf hleaf
    have h1 := h.rc f hf hleaf
    rw [← h1]
    refine h'.rc f (by rw [h1]; exact hf) ?_
    rwa [h.hasLeaf_iff hr hne]
  up := by
    intro f hf
    obtain ⟨hlo, hhi⟩ := h.up f hf
    obtain ⟨hlo', hhi'⟩ := h'.up f (by omega)
    omega
  fresh := by
    intro f hf hleaf
    have hle := h.fresh f hf hleaf
    rw [← h.hasLeaf_iff hr hne] at hleaf
    by_cases h1 : pl1.fa.refcount f = 0
    · exact h'.fresh f h1 hleaf
    rw [h'.rc f h1 hleaf]
    exact hle

lemma below_eq (hr : r ∈ roots) (hne : r ≠ x)
    {q : List Nat} {w : Nat → Nat → Nat} {L t i : Nat} (hq : q.length + (L + 1) = 4)
    (hpath : ∀ j ∈ q, j < 512) (hat : tableAt ptr (cell pl.phys) r q = some t) (hi : i < 512) :
    below ptr 512 (cell pl1.phys) w L (cell pl1.phys t i)
      = below ptr 512 (cell pl.phys) w L (cell pl.phys t i) := by
  have htab : 0 < total ptr 512 (cell pl.phys) (tabW t) 4 r := tab_of_tableAt hpath (by omega) hat
  rw [(h.others r hr hne t htab).cell hi]
  unfold below
  cases hy : ptr (cell pl.phys t i) with
  | none => rw [Option.elim_none, Option.elim_none]
  | some y =>
    refine total_congr fun g hg j hj => (h.others r hr hne g ?_).cell hj
    have hle := total_le_of_tableAt (w := tabW g) L (bounded_concat hpath hi)
      (tableAt_concat hat hy)
    have hlen : (q ++ [i]).length + L = 4 := by
      simp only [List.length_append, List.length_singleton]; omega
    rw [hlen] at hle
    omega

end

end Cloned

def slotLeaves (m : PhysMem) (L t : Nat) (xs : List Nat) (f : Nat) : Nat :=
  (xs.map fun i => below ptr 512 (cell m) (leafW f) L (cell m t i)).sum

/-- A copy of what is below the path `q`, as far as it got. -/
def Copied (pl : Pool) (roots : Finset Nat) (held : Nat → Nat) (r x : Nat) (q : List Nat)
    (b : Nat → Nat) (res : Bool × Pool) : Prop :=
  Cloned pl roots held r x (fun p => q <+: p ∧ p ≠ q) b res.2 ∧
    (res.1 = true → ∀ p, Full p → q <+: p →
      look ptr (cell res.2.phys) x p = (look ptr (cell pl.phys) r p).map Pte.readOnly)

section Copy

variable {pl : Pool} {roots : Finset Nat} {held : Nat → Nat} {r x : Nat}

/-- A slot of the copy that is still empty, and the parent's slot for it. -/
structure Twin (pl : Pool) (roots : Finset Nat) (r x : Nat) (q : List Nat) (tp tc i : Nat) :
    Prop where
  parent : Slot pl.phys roots r q tp i
  child : Slot pl.phys roots x q tc i
  ne : r ≠ x
  empty : ptr (cell pl.phys tc i) = none

variable {q : List Nat} {tp tc i : Nat}

lemma share_leaf {f : Nat} (h : Good pl roots held)
    (ht : Twin pl roots r x q tp tc i) (hq : q.length = 3) (hf : ptr (cell pl.phys tp i) = some f) :
    Cloned pl roots held r x (fun p => q ++ [i] <+: p)
        (fun g => below ptr 512 (cell pl.phys) (leafW g) 0 (cell pl.phys tp i))
        ((pl.incref (f * 4096)).store (tc * 4096 + i * 8) (readOnly (cell pl.phys tp i))) ∧
      ∀ p, Full p → q ++ [i] <+: p →
        look ptr (cell ((pl.incref (f * 4096)).store (tc * 4096 + i * 8)
          (readOnly (cell pl.phys tp i))).phys) x p
          = (look ptr (cell pl.phys) r p).map readOnly := by
  have hfull : Full (q ++ [i]) := by
    exact ⟨by simp [hq], bounded_concat ht.parent.path ht.parent.lt⟩
  have hlook : look ptr (cell pl.phys) r (q ++ [i]) = some (cell pl.phys tp i) := by
    rw [look_append_single, ht.parent.at_table]
    simp [hf]
  have hpos : 0 < total ptr 512 (cell pl.phys) (refW f) 4 r :=
    ref_of_look hfull.2 (by rw [hfull.1]) hlook hf
  obtain ⟨hf0, hfused⟩ := h.used_of_refs
    (lt_of_lt_of_le hpos (Balanced.tab_le_refs ht.parent.root))
  have hdata : Data pl roots f := by
    refine ⟨hfused, isTable_iff.mpr (h.bal.not_table_of_leaf ht.parent.root ?_)⟩
    exact leaf_of_look hfull.2 hfull.1 hlook hf
  have hptr : ptr (readOnly (cell pl.phys tp i)) = some f := by simpa using hf
  have hg1 := h.retain hdata hf0
  rw [← bumpEntry_some hptr] at hg1
  have hslot : Slot (pl.incref (f * 4096)).phys roots x q tc i := ht.child
  have hlink : Linkable (pl.incref (f * 4096)) q (readOnly (cell pl.phys tp i)) := .inl hq
  have hg2 := hg1.link hslot (fun y hy => .inl (by omega)) hlink
  have hempty : ptr (cell (pl.incref (f * 4096)).phys tc i) = none := ht.empty
  rw [bumpEntry_none hempty] at hg2
  refine ⟨⟨hg2, ?_, ?_, ?_, ?_, ?_, ?_⟩, ?_⟩
  · intro s hs hsx g hg
    refine hslot.same _ ?_
    rintro rfl
    have := hslot.only hg1 hs hsx
    have hsame : total ptr 512 (cell (pl.incref (f * 4096)).phys) (tabW g) 4 s
        = total ptr 512 (cell pl.phys) (tabW g) 4 s := rfl
    omega
  · intro p hp hlen hn
    rw [hslot.look_store hg1 _ hslot.root hp hlen, if_neg fun hc => hn hc.2]
    rfl
  · intro g hd
    have hrc := h.retain_rc hdata g
    have hd1 : Data (pl.incref (f * 4096)) roots g := by
      refine ⟨?_, hd.notTable⟩
      rw [hrc]
      have := hd.used
      split
      · simp only [pinned]; omega
      · exact this
    exact hg1.keeps_link hslot hlink hd1 (.inl hq)
  · intro g _ hleaf
    have hgf : g ≠ f := by
      rintro rfl
      exact hleaf ⟨q ++ [i], _, hfull, hlook, hf⟩
    exact (h.retain_rc hdata g).trans (if_neg hgf)
  · intro g hg
    have hrc : ((pl.incref (f * 4096)).store (tc * 4096 + i * 8)
        (readOnly (cell pl.phys tp i))).fa.refcount g = _ := h.retain_rc hdata g
    have hle := h.le g
    rw [hrc]
    by_cases hgf : g = f
    · subst hgf
      simp only [if_true, below, hf, Option.elim_some, total_zero, leafW, and_self]
      omega
    · rw [if_neg hgf]
      omega
  · intro g hg _
    have hgf : g ≠ f := by
      rintro rfl
      exact hfused hg
    have hrc : ((pl.incref (f * 4096)).store (tc * 4096 + i * 8)
        (readOnly (cell pl.phys tp i))).fa.refcount g = _ :=
      (h.retain_rc hdata g).trans (if_neg hgf)
    omega
  intro p hp hpre
  have hpq : q ++ [i] = p := hpre.eq_of_length (by rw [hfull.1, hp.1])
  subst hpq
  rw [hslot.look_store hg1 _ hslot.root hp.2 (by rw [hp.1]), if_pos ⟨rfl, List.prefix_refl _⟩,
    hlook]
  simp [follow, hf]

lemma link_sub {y : Nat} {pl1 : Pool} (h : Good pl roots held)
    (ht : Twin pl roots r x q tp tc i) (hq : q.length ≤ 2) (ha : pl.alloc = some (y * 4096, pl1)) :
    Cloned pl roots held r x (fun p => q ++ [i] <+: p) (fun _ => 0)
        (pl1.store (tc * 4096 + i * 8) (make (y * 4096) interior)) ∧
      tableAt ptr (cell (pl1.store (tc * 4096 + i * 8)
        (make (y * 4096) interior)).phys) x (q ++ [i]) = some y ∧
      ∀ j, j < 512 → cell (pl1.store (tc * 4096 + i * 8)
        (make (y * 4096) interior)).phys y j = 0 := by
  obtain ⟨y', hy, hfresh, hg1⟩ := h.alloc ha
  obtain rfl : y = y' := by omega
  have hsteady := hfresh.steady h
  have hptr : ptr (make (y * 4096) interior) = some y := ptr_make hfresh.lt clear_interior (by simp)
  have hslot : Slot pl1.phys roots x q tc i :=
    { ht.child with at_table := (hsteady.tableAt_eq ht.child.root ht.child.path
        (by omega)).trans ht.child.at_table }
  have hempty : ptr (cell pl1.phys tc i) = none := by
    rw [(hsteady tc ht.child.isTable).cell ht.child.lt]
    exact ht.empty
  have hlink : Linkable pl1 q (make (y * 4096) interior) := by
    refine .inr fun z hz => ?_
    rw [hptr, Option.some.injEq] at hz
    subst hz
    exact ⟨hfresh.rc_self, fun j hj => hfresh.cell_zero hj⟩
  rw [← bumpEntry_some hptr] at hg1
  have hg2 := hg1.link hslot (fun z hz => by rw [hempty] at hz; simp at hz) hlink
  rw [bumpEntry_none hempty] at hg2
  have hpath := bounded_concat ht.child.path ht.child.lt
  have htc : tc ≠ y := by
    refine hfresh.ne_of_used ?_
    have := (h.rc_of_table ht.child.isTable).2
    omega
  refine ⟨⟨hg2, ?_, ?_, ?_, ?_, ?_, ?_⟩, ?_, ?_⟩
  · intro s hs hsx g hg
    refine (hsteady g ⟨s, hs, hg⟩).trans (hslot.same _ ?_)
    rintro rfl
    have hzero := hslot.only hg1 hs hsx
    rw [total_congr (hsteady.agree hs)] at hzero
    omega
  · intro p hp hlen hn
    rw [hslot.look_store hg1 _ hslot.root hp hlen, if_neg fun hc => hn hc.2,
      hsteady.look_eq hslot.root hp hlen]
  · intro g hd
    obtain ⟨hd1, -, hs1⟩ := (hfresh.keeps h).data g hd
    have hne : ptr (make (y * 4096) interior) ≠ some g := by
      rw [hptr]
      simpa using Ne.symm (hfresh.ne_of_used hd.used)
    obtain ⟨hd2, hs2⟩ := hg1.keeps_link hslot hlink hd1 (.inr hne)
    exact ⟨hd2, hs1.trans hs2⟩
  · intro g hg _
    exact hfresh.rc_other (hfresh.ne_of_used hg)
  · intro g hg
    have hrc : (pl1.store (tc * 4096 + i * 8)
        (make (y * 4096) interior)).fa.refcount g = _ :=
      hfresh.rc_other (hfresh.ne_of_used hg)
    omega
  · intro g hg _
    have hrc : (pl1.store (tc * 4096 + i * 8)
        (make (y * 4096) interior)).fa.refcount g = _ := hfresh.rc g
    rw [hrc]
    split <;> omega
  · rw [tableAt_eq_look (by simp), hslot.look_store hg1 _ hslot.root hpath (by simp; omega),
      if_pos ⟨rfl, List.prefix_refl _⟩]
    simp [follow, hptr]
  intro j hj
  rw [(wrote_store pl1 tc hslot.lt _).other hj (.inl (Ne.symm htc))]
  exact hfresh.cell_zero hj

/-- What `cloneEntries` is given to copy a sub-table of level `L` with. -/
def SubSpec (roots : Finset Nat) (held : Nat → Nat) (r x : Nat) (q : List Nat) (L : Nat)
    (sub : Nat → Nat → Pool → Bool × Pool) : Prop :=
  ∀ (pl : Pool) (i tp tc : Nat), i < 512 → Good pl roots held →
    tableAt ptr (cell pl.phys) r (q ++ [i]) = some tp →
    tableAt ptr (cell pl.phys) x (q ++ [i]) = some tc →
    (∀ j, j < 512 → cell pl.phys tc j = 0) →
    Copied pl roots held r x (q ++ [i]) (fun f => total ptr 512 (cell pl.phys) (leafW f) L tp)
      (sub (tp * 4096) (tc * 4096) pl)

/-- The part of the copy that the slots `xs` stand for. -/
def Region (q xs : List Nat) (p : List Nat) : Prop := ∃ i ∈ xs, q ++ [i] <+: p

lemma slot_unique {p : List Nat} {j : Nat} (hi : q ++ [i] <+: p) (hj : q ++ [j] <+: p) : i = j := by
  have h : q ++ [i] = q ++ [j] :=
    (List.prefix_of_prefix_length_le hi hj (by simp)).eq_of_length (by simp)
  simpa using h

/-- The copy is right as far as the slots `xs` of `tp` go, if `ok`. -/
def Slots (pl : Pool) (roots : Finset Nat) (held : Nat → Nat) (r x : Nat) (q : List Nat)
    (L tp : Nat) (xs : List Nat) (res : Bool × Pool) : Prop :=
  Cloned pl roots held r x (Region q xs) (slotLeaves pl.phys L tp xs) res.2 ∧
    (res.1 = true → ∀ p, Full p → Region q xs p →
      look ptr (cell res.2.phys) x p = (look ptr (cell pl.phys) r p).map Pte.readOnly)

section Loop

variable {L : Nat} {xs : List Nat} (hq : q.length + (L + 1) = 4) (hpath : ∀ j ∈ q, j < 512)
  (hr : r ∈ roots) (hne : r ≠ x)
include hq hpath hr hne

lemma twin_rest {pl1 : Pool} {b : Nat → Nat}
    (hc : Cloned pl roots held r x (fun p => q ++ [i] <+: p) b pl1)
    (hatp : tableAt ptr (cell pl.phys) r q = some tp)
    (hatc : tableAt ptr (cell pl.phys) x q = some tc) (hlt : ∀ j ∈ xs, j < 512) (hi : i ∉ xs)
    (hempty : ∀ j ∈ xs, ptr (cell pl.phys tc j) = none) :
    tableAt ptr (cell pl1.phys) r q = some tp ∧ tableAt ptr (cell pl1.phys) x q = some tc ∧
      ∀ j ∈ xs, ptr (cell pl1.phys tc j) = none := by
  have hatc1 : tableAt ptr (cell pl1.phys) x q = some tc := by
    refine (hc.tableAt_self hpath (by omega) fun hp => ?_).trans hatc
    have := hp.length_le
    simp at this
  refine ⟨(hc.tableAt_other hr hne hpath (by omega)).trans hatp, hatc1, fun j hj => ?_⟩
  have hsame := hc.tableAt_self (bounded_concat hpath (hlt j hj)) (by simp; omega) fun hp =>
    hi (slot_unique (List.prefix_refl _) hp ▸ hj)
  rw [tableAt_append, tableAt_append, hatc, hatc1] at hsame
  simpa [hempty j hj] using hsame

lemma slots_cons {pl1 : Pool} {res : Bool × Pool} (hi : i ∉ xs)
    (hatp : tableAt ptr (cell pl.phys) r q = some tp) (hlt : ∀ j ∈ xs, j < 512)
    (hc : Cloned pl roots held r x (fun p => q ++ [i] <+: p)
      (fun f => below ptr 512 (cell pl.phys) (leafW f) L (cell pl.phys tp i)) pl1)
    (hdone : ∀ p, Full p → q ++ [i] <+: p → look ptr (cell pl1.phys) x p
      = (look ptr (cell pl.phys) r p).map readOnly)
    (hrest : Slots pl1 roots held r x q L tp xs res) :
    Slots pl roots held r x q L tp (i :: xs) res := by
  obtain ⟨hc2, hdone2⟩ := hrest
  have hleaves : ∀ f, slotLeaves pl1.phys L tp xs f = slotLeaves pl.phys L tp xs f := by
    intro f
    unfold slotLeaves
    congr 1
    exact List.map_congr_left fun j hj => hc.below_eq hr hne hq hpath hatp (hlt j hj)
  have hall := (hc.mono (T := Region q (i :: xs)) (fun p hp => ⟨i, by simp, hp⟩)
    fun f => le_rfl).trans (hc2.mono (fun p ⟨j, hj, hp⟩ => ⟨j, by simp [hj], hp⟩)
      fun f => le_of_eq (hleaves f)) hr hne
  refine ⟨hall.mono (fun p hp => hp) fun f => by simp [slotLeaves], fun hok p hp hreg => ?_⟩
  have hpl : p.length ≤ 4 := by rw [hp.1]
  obtain ⟨j, hj, hpre⟩ := hreg
  rcases List.mem_cons.mp hj with rfl | hj
  · have hout : ¬ Region q xs p := by
      rintro ⟨k, hk, hpk⟩
      rw [slot_unique hpre hpk] at hi
      exact hi hk
    rw [hc2.frame p hp.2 hpl hout]
    exact hdone p hp hpre
  · rw [hdone2 hok p hp ⟨j, hj, hpre⟩, hc.look_other hr hne hp.2 hpl]

lemma link_copied {sub : Nat → Nat → Pool → Bool × Pool} {f y : Nat} {pl1 : Pool}
    (h : Good pl roots held) (ht : Twin pl roots r x q tp tc i) (hL : L ≠ 0)
    (hsub : SubSpec roots held r x q L sub) (hf : ptr (cell pl.phys tp i) = some f)
    (ha : pl.alloc = some (y * 4096, pl1)) {res : Bool × Pool}
    (hres : sub (f * 4096) (y * 4096) (pl1.store (tc * 4096 + i * 8)
      (make (y * 4096) interior)) = res) : Cloned pl roots held r x (fun p => q ++ [i] <+: p)
        (fun f => below ptr 512 (cell pl.phys) (leafW f) L (cell pl.phys tp i)) res.2 ∧
      (res.1 = true → ∀ p, Full p → q ++ [i] <+: p → look ptr (cell res.2.phys) x p
        = (look ptr (cell pl.phys) r p).map readOnly) := by
  subst hres
  obtain ⟨hc1, haty, hzero⟩ := link_sub h ht (by omega) ha
  have hatf1 := (hc1.tableAt_other hr hne (bounded_concat hpath ht.parent.lt)
    (by simp; omega)).trans (tableAt_concat ht.parent.at_table hf)
  obtain ⟨hc2, hdone2⟩ := hsub _ i f y ht.parent.lt hc1.good hatf1 haty hzero
  have hlevel : ∀ g, 0 + total ptr 512 (cell (pl1.store (tc * 4096 + i * 8)
      (make (y * 4096) interior)).phys) (leafW g) L f
      = below ptr 512 (cell pl.phys) (leafW g) L (cell pl.phys tp i) := by
    intro g
    rw [zero_add, ← hc1.below_eq hr hne hq hpath ht.parent.at_table ht.parent.lt]
    have hcell := (hc1.others r hr hne tp ht.parent.counted).cell ht.parent.lt
    simp only [below, hcell, hf, Option.elim_some]
  refine ⟨(hc1.trans (hc2.mono (fun p hp => hp.1) fun f => le_rfl) hr hne).mono
    (fun p hp => hp) fun g => le_of_eq (hlevel g), fun hok p hp hpre => ?_⟩
  rw [hdone2 hok p hp hpre, hc1.look_other hr hne hp.2 (by rw [hp.1])]

lemma cloneEntries_spec (sub : Nat → Nat → Pool → Bool × Pool) (hx : x ∈ roots)
    (hsub : L ≠ 0 → SubSpec roots held r x q L sub) (xs : List Nat) :
    ∀ {pl : Pool}, xs.Nodup → (∀ i ∈ xs, i < 512) → Good pl roots held →
      tableAt ptr (cell pl.phys) r q = some tp → tableAt ptr (cell pl.phys) x q = some tc →
      (∀ i ∈ xs, ptr (cell pl.phys tc i) = none) → Slots pl roots held r x q L tp xs
        (cloneEntries sub (L == 0) (tp * 4096) (tc * 4096) xs pl) := by
  induction xs with
  | nil =>
    intro pl _ _ h _ _ _
    refine ⟨Cloned.refl h, fun _ p _ hp => ?_⟩
    obtain ⟨i, hi, -⟩ := hp
    simp at hi
  | cons i xs ih =>
    intro pl hnd hlt h hatp hatc hempty
    obtain ⟨hi, hnd⟩ := List.nodup_cons.mp hnd
    have hi512 : i < 512 := hlt i (by simp)
    have hlt' : ∀ j ∈ xs, j < 512 := fun j hj => hlt j (by simp [hj])
    have ht : Twin pl roots r x q tp tc i :=
      ⟨⟨hr, hi512, hpath, by omega, hatp⟩, ⟨hx, hi512, hpath, by omega, hatc⟩, hne,
        hempty i (by simp)⟩
    have hrest : ∀ {pl1 : Pool},
        Cloned pl roots held r x (fun p => q ++ [i] <+: p)
          (fun f => below ptr 512 (cell pl.phys) (leafW f) L (cell pl.phys tp i)) pl1 →
        (∀ p, Full p → q ++ [i] <+: p → look ptr (cell pl1.phys) x p
          = (look ptr (cell pl.phys) r p).map readOnly) →
        Slots pl roots held r x q L tp (i :: xs)
          (cloneEntries sub (L == 0) (tp * 4096) (tc * 4096) xs pl1) := by
      intro pl1 hc hdone
      obtain ⟨hatp1, hatc1, hempty1⟩ := twin_rest hq hpath hr hne hc hatp hatc hlt' hi
        fun j hj => hempty j (by simp [hj])
      exact slots_cons hq hpath hr hne hi hatp hlt' hc hdone
        (ih hnd hlt' hc.good hatp1 hatc1 hempty1)
    have hentry : entry pl.phys (tp * 4096) i = cell pl.phys tp i := rfl
    simp only [cloneEntries, hentry]
    cases hf : ptr (cell pl.phys tp i) with
    | none =>
      rw [if_pos (by rw [ptr_eq_none.mp hf]; rfl)]
      refine hrest (Cloned.refl h) fun p hp hpre => ?_
      rw [look_eq_none_of_absent ht.parent.at_table hf hpre,
        look_eq_none_of_absent ht.child.at_table ht.empty hpre]
      rfl
    | some f =>
      obtain ⟨hpres, haddr⟩ := ptr_eq_some.mp hf
      rw [if_neg (by rw [hpres]; simp)]
      by_cases hL : L = 0
      · -- the leaf level
        subst hL
        rw [if_pos (by rfl), haddr]
        obtain ⟨hc, hdone⟩ := share_leaf h ht (by omega) hf
        exact hrest hc hdone
      rw [if_neg (by simpa using hL)]
      cases ha : pl.alloc with
      | none => exact ⟨Cloned.refl h, fun hc => by simp at hc⟩
      | some res =>
        obtain ⟨childSub, pl1⟩ := res
        obtain ⟨y, rfl, -, -⟩ := h.alloc ha
        rw [haddr]
        dsimp only
        cases hres : sub (f * 4096) (y * 4096) (pl1.store (tc * 4096 + i * 8)
            (make (y * 4096) interior)) with
        | mk ok pl3 =>
          obtain ⟨hc, hdone⟩ := link_copied hq hpath hr hne h ht hL (hsub hL) hf ha hres
          cases ok with
          | false =>
            refine ⟨hc.mono (fun p hp => ⟨i, by simp, hp⟩) fun g => ?_, fun hc => by simp at hc⟩
            simp [slotLeaves]
          | true => exact hrest hc (hdone rfl)

end Loop

lemma copied_of_region {L : Nat} {res : Bool × Pool}
    (hq : q.length + (L + 1) = 4) (hpath : ∀ j ∈ q, j < 512)
    (hc : Cloned pl roots held r x (Region q (List.range 512))
      (slotLeaves pl.phys L tp (List.range 512)) res.2)
    (hdone : res.1 = true → ∀ p, Full p → Region q (List.range 512) p →
      look ptr (cell res.2.phys) x p = (look ptr (cell pl.phys) r p).map readOnly) :
    Copied pl roots held r x q (fun f => total ptr 512 (cell pl.phys) (leafW f) (L + 1) tp)
      res := by
  refine ⟨hc.mono ?_ fun f => ?_, fun hok p hp hpre => hdone hok p hp ?_⟩
  · rintro p ⟨i, -, hpre⟩
    refine ⟨(List.prefix_append ..).trans hpre, ?_⟩
    rintro rfl
    have := hpre.length_le
    simp at this
  · rw [total_succ, sum_range_list]
    simp [slotLeaves, leafW]
  obtain ⟨rest, rfl⟩ := hpre
  cases rest with
  | nil =>
    have := hp.1
    simp at this
    omega
  | cons i rest => exact ⟨i, List.mem_range.mpr (hp.2 i (by simp)), ⟨rest, by simp⟩⟩

lemma cloneSubtree_succ (L tp tc : Nat) (pl : Pool) : cloneSubtree (L + 1) tp tc pl
      = cloneEntries (cloneSubtree L) (L == 0) tp tc (List.range 512) pl := by
  rw [cloneSubtree]

lemma cloneSubtree_spec (hr : r ∈ roots) (hx : x ∈ roots) (hne : r ≠ x) (L : Nat) :
    ∀ {pl : Pool} {q : List Nat} {tp tc : Nat}, q.length + (L + 1) = 4 → (∀ j ∈ q, j < 512) →
      Good pl roots held → tableAt ptr (cell pl.phys) r q = some tp →
      tableAt ptr (cell pl.phys) x q = some tc → (∀ j, j < 512 → cell pl.phys tc j = 0) →
      Copied pl roots held r x q (fun f => total ptr 512 (cell pl.phys) (leafW f) (L + 1) tp)
        (cloneSubtree (L + 1) (tp * 4096) (tc * 4096) pl) := by
  induction L with
  | zero =>
    intro pl q tp tc hq hpath h hatp hatc hempty
    rw [cloneSubtree_succ]
    obtain ⟨hc, hdone⟩ := cloneEntries_spec hq hpath hr hne (cloneSubtree 0) hx
      (fun hL => absurd rfl hL) (List.range 512) List.nodup_range
      (fun _ hi => List.mem_range.mp hi) h hatp hatc
      (fun i hi => by rw [hempty i (List.mem_range.mp hi)]; exact ptr_zero)
    exact copied_of_region hq hpath hc hdone
  | succ L ih =>
    intro pl q tp tc hq hpath h hatp hatc hempty
    rw [cloneSubtree_succ]
    obtain ⟨hc, hdone⟩ := cloneEntries_spec hq hpath hr hne (cloneSubtree (L + 1)) hx
      (fun _ pl i tp tc hi h hatp hatc hempty => ih (by simp; omega)
        (bounded_concat hpath hi) h hatp hatc hempty)
      (List.range 512) List.nodup_range (fun _ hi => List.mem_range.mp hi) h hatp hatc
      (fun i hi => by rw [hempty i (List.mem_range.mp hi)]; exact ptr_zero)
    exact copied_of_region hq hpath hc hdone

end Copy

/-! ### Write-protecting -/

/-- The leaves on the paths `S` of the tree at `r` are read-only; nothing else changed. -/
structure Cleared (pl : Pool) (roots : Finset Nat) (held : Nat → Nat) (r : Nat)
    (S : List Nat → Prop) (m : PhysMem) : Prop where
  good : Good { pl with phys := m } roots held
  keeps : Keeps pl roots { pl with phys := m } roots
  ptrs : ∀ f i, i < 512 → ptr (cell m f i) = ptr (cell pl.phys f i)
  others : ∀ s ∈ roots, ∀ p, Full p → s ≠ r ∨ ¬ S p →
    look ptr (cell m) s p = look ptr (cell pl.phys) s p
  done : ∀ p, Full p → S p → look ptr (cell m) r p = (look ptr (cell pl.phys) r p).map Pte.readOnly

namespace Cleared

variable {pl : Pool} {roots : Finset Nat} {held : Nat → Nat} {r : Nat} {S T : List Nat → Prop}

variable {m : PhysMem}

section

variable (h : Cleared pl roots held r S m)
include h

lemma trans {m' : PhysMem}
    (h' : Cleared { pl with phys := m } roots held r T m') (hr : r ∈ roots) :
    Cleared pl roots held r (fun p => S p ∨ T p) m' where
  good := h'.good
  keeps := h.keeps.trans h'.keeps
  ptrs := fun f i hi => (h'.ptrs f i hi).trans (h.ptrs f i hi)
  others := by
    intro s hs p hp hout
    rw [h'.others s hs p hp (hout.imp_right fun hn ht => hn (.inr ht))]
    exact h.others s hs p hp (hout.imp_right fun hn hs => hn (.inl hs))
  done := by
    intro p hp hin
    have hfirst : ¬ S p → look ptr (cell m) r p = look ptr (cell pl.phys) r p :=
      fun hn => h.others r hr p hp (.inr hn)
    by_cases hT : T p
    · rw [h'.done p hp hT]
      by_cases hS : S p
      · rw [h.done p hp hS, Option.map_map]
        congr 1
        funext e
        simp
      · rw [hfirst hS]
    · rw [h'.others r hr p hp (.inr hT)]
      exact h.done p hp (hin.resolve_right hT)

lemma congr (hst : ∀ p, Full p → (S p ↔ T p)) :
    Cleared pl roots held r T m :=
  { h with
    others := fun s hs p hp hout => h.others s hs p hp (hout.imp_right fun hn hs' =>
      hn ((hst p hp).mp hs'))
    done := fun p hp hT => h.done p hp ((hst p hp).mpr hT) }

lemma tableAt_eq (s : Nat) {p : List Nat}
    (hp : ∀ j ∈ p, j < 512) : tableAt ptr (cell m) s p = tableAt ptr (cell pl.phys) s p := by
  induction p generalizing s with
  | nil => rfl
  | cons i p ih =>
    rw [tableAt_cons, tableAt_cons, h.ptrs s i (hp i (by simp))]
    cases ptr (cell pl.phys s i) with
    | none => rw [Option.bind_none, Option.bind_none]
    | some y => exact ih y fun j hj => hp j (by simp [hj])

end

end Cleared

def clearSlot (rec : Nat → PhysMem → PhysMem) (leafLevel : Bool) (table : Nat)
    (m : PhysMem) (idx : Nat) : PhysMem :=
  let e := entry m table idx
  if !Pte.present e then m
  else if leafLevel then
    if Pte.writable e then m.writeU64Atomic (table + idx * 8) (e &&& ~~~Pte.RW) else m
  else rec (Pte.addr e) m

lemma clearLeafWrite_succ (L t : Nat) (m : PhysMem) : clearLeafWrite (L + 1) t m
      = (List.range 512).foldl (clearSlot (clearLeafWrite L) (L == 0) t) m := by
  rw [clearLeafWrite]
  congr 1
  funext m idx
  simp only [clearSlot, beq_iff_eq]

section Clear

variable {roots : Finset Nat} {held : Nat → Nat} {r : Nat}

variable {pl : Pool} {q : List Nat} {t i : Nat}

lemma cleared_absent (h : Good pl roots held)
    (hs : Slot pl.phys roots r q t i) (hx : ptr (cell pl.phys t i) = none) :
    Cleared pl roots held r (fun p => q ++ [i] <+: p) pl.phys :=
  ⟨h, Keeps.refl .., fun _ _ _ => rfl, fun _ _ _ _ _ => rfl, fun p _ hp => by
    rw [look_eq_none_of_absent hs.at_table hx hp]; rfl⟩

lemma cleared_leaf {f : Nat} (h : Good pl roots held)
    (hs : Slot pl.phys roots r q t i) (hq : q.length = 3) (hx : ptr (cell pl.phys t i) = some f) :
    Cleared pl roots held r (fun p => q ++ [i] <+: p)
      (pl.store (t * 4096 + i * 8) (readOnly (cell pl.phys t i))).phys := by
  have hptr : ptr (readOnly (cell pl.phys t i)) = ptr (cell pl.phys t i) := by simp
  obtain ⟨hg, hk⟩ := h.restore hs hptr
  refine ⟨hg, hk, fun g j hj => ?_, fun s hmem p hp hout => ?_, fun p hp hpre => ?_⟩
  · rw [wrote_store pl t hs.lt _ g j hj]
    split
    next hc =>
      rw [hc.1, hc.2, hptr]
    · rfl
  · rw [hs.look_store h _ hmem hp.2 (by rw [hp.1]), if_neg]
    rintro ⟨hsr, hpre⟩
    rcases hout with hne | hn
    · exact hne hsr
    · exact hn hpre
  have hpq : q ++ [i] = p := hpre.eq_of_length (by rw [hp.1]; simp [hq])
  subst hpq
  rw [hs.look_store h _ hs.root hp.2 (by rw [hp.1]), if_pos ⟨rfl, List.prefix_refl _⟩,
    look_append_single, hs.at_table]
  simp [follow, hx]

/-- What `clearSlot` is given to do a sub-table with. -/
def SubClear (roots : Finset Nat) (held : Nat → Nat) (r : Nat) (q : List Nat)
    (rec : Nat → PhysMem → PhysMem) : Prop :=
  ∀ (pl : Pool) (i t : Nat), i < 512 → Good pl roots held →
    tableAt ptr (cell pl.phys) r (q ++ [i]) = some t →
    Cleared pl roots held r (fun p => q ++ [i] <+: p) (rec (t * 4096) pl.phys)

lemma clearSlot_spec {rec : Nat → PhysMem → PhysMem}
    {L : Nat} (hq : q.length + (L + 1) = 4) (hs : Slot pl.phys roots r q t i)
    (h : Good pl roots held) (hrec : L ≠ 0 → SubClear roots held r q rec) :
    Cleared pl roots held r (fun p => q ++ [i] <+: p)
      (clearSlot rec (L == 0) (t * 4096) pl.phys i) := by
  have hentry : entry pl.phys (t * 4096) i = cell pl.phys t i := rfl
  unfold clearSlot
  rw [hentry]
  cases hx : ptr (cell pl.phys t i) with
  | none =>
    rw [if_pos (by rw [ptr_eq_none.mp hx]; rfl)]
    exact cleared_absent h hs hx
  | some f =>
    obtain ⟨hpres, haddr⟩ := ptr_eq_some.mp hx
    rw [if_neg (by rw [hpres]; simp)]
    by_cases hL : L = 0
    · subst hL
      rw [if_pos (by rfl)]
      have hleaf := cleared_leaf h hs (by omega) hx
      by_cases hw : writable (cell pl.phys t i) = true
      · rw [if_pos hw]
        exact hleaf
      rw [if_neg hw]
      -- storing the entry that is there changes nothing
      have hro := readOnly_of_not_writable (by simpa using hw :
        writable (cell pl.phys t i) = false)
      refine ⟨h, Keeps.refl .., fun _ _ _ => rfl, fun _ _ _ _ _ => rfl, fun p hp hpre => ?_⟩
      have hpq : q ++ [i] = p := hpre.eq_of_length (by rw [hp.1]; simp; omega)
      subst hpq
      rw [look_append_single, hs.at_table]
      simp [hx, hro]
    rw [if_neg (by simpa using hL), haddr]
    refine hrec hL pl i f hs.lt h ?_
    rw [tableAt_append, hs.at_table]
    simp [hx]

lemma clearSlots_spec (rec : Nat → PhysMem → PhysMem) {L : Nat}
    (hq : q.length + (L + 1) = 4) (hpath : ∀ j ∈ q, j < 512) (hr : r ∈ roots)
    (hrec : L ≠ 0 → SubClear roots held r q rec) (xs : List Nat) :
    ∀ {pl : Pool}, (∀ i ∈ xs, i < 512) → Good pl roots held →
      tableAt ptr (cell pl.phys) r q = some t → Cleared pl roots held r (Region q xs)
        (xs.foldl (clearSlot rec (L == 0) (t * 4096)) pl.phys) := by
  induction xs with
  | nil =>
    intro pl _ h _
    refine ⟨h, Keeps.refl .., fun _ _ _ => rfl, fun _ _ _ _ _ => rfl, fun p _ hp => ?_⟩
    obtain ⟨i, hi, -⟩ := hp
    simp at hi
  | cons i xs ih =>
    intro pl hlt h hat
    have hs : Slot pl.phys roots r q t i := ⟨hr, hlt i (by simp), hpath, by omega, hat⟩
    have hone := clearSlot_spec hq hs h hrec
    have hat' := (hone.tableAt_eq r hpath).trans hat
    have hrest := @ih { pl with phys := clearSlot rec (L == 0) (t * 4096) pl.phys i }
      (fun j hj => hlt j (by simp [hj])) hone.good hat'
    refine (hone.trans hrest hr).congr fun p _ => ?_
    simp only [Region, List.mem_cons, exists_eq_or_imp]

/-- **`clearLeafWrite`.**  Every leaf below the table is read-only, and that is all. -/
lemma clearLeafWrite_spec (hr : r ∈ roots) (L : Nat) :
    ∀ {pl : Pool} {q : List Nat} {t : Nat}, q.length + (L + 1) = 4 → (∀ j ∈ q, j < 512) →
      Good pl roots held → tableAt ptr (cell pl.phys) r q = some t →
      Cleared pl roots held r (fun p => q <+: p) (clearLeafWrite (L + 1) (t * 4096) pl.phys) := by
  have hregion : ∀ {q : List Nat}, q.length ≤ 3 → ∀ p, Full p →
      (Region q (List.range 512) p ↔ q <+: p) := by
    intro q hq p hp
    refine ⟨fun ⟨i, _, hpre⟩ => (List.prefix_append ..).trans hpre, fun hpre => ?_⟩
    obtain ⟨rest, rfl⟩ := hpre
    cases rest with
    | nil =>
      have := hp.1
      simp at this
      omega
    | cons i rest => exact ⟨i, List.mem_range.mpr (hp.2 i (by simp)), ⟨rest, by simp⟩⟩
  induction L with
  | zero =>
    intro pl q t hq hpath h hat
    exact (clearSlots_spec (clearLeafWrite 0) hq hpath hr (fun hL => absurd rfl hL)
      (List.range 512) (fun _ hi => List.mem_range.mp hi) h hat).congr (hregion (by omega))
  | succ L ih =>
    intro pl q t hq hpath h hat
    rw [clearLeafWrite_succ]
    refine (clearSlots_spec (clearLeafWrite (L + 1)) hq hpath hr (fun _ pl i t hi h hat => ?_)
      (List.range 512) (fun _ hi => List.mem_range.mp hi) h hat).congr (hregion (by omega))
    exact ih (by simp; omega) (bounded_concat hpath hi) h hat

end Clear

/-! ### A new tree -/

/-- What taking a fresh frame for the root of a new tree leaves behind. -/
structure Planted (pl : Pool) (roots : Finset Nat) (held : Nat → Nat) (x : Nat) (pl' : Pool) :
    Prop where
  new : x ∉ roots
  fresh : Fresh pl pl' x
  good : Good pl' (insert x roots) held
  steady : Steady pl.phys roots pl'.phys
  keeps : Keeps pl roots pl' (insert x roots)

namespace Planted

variable {pl pl' : Pool} {roots : Finset Nat} {held : Nat → Nat} {x : Nat}

section

variable (h : Planted pl roots held x pl')
include h

lemma ne_zero : x ≠ 0 := by
  have := h.fresh.low
  omega

lemma ne_of_mem {s : Nat} (hs : s ∈ roots) : s ≠ x := by
  rintro rfl
  exact h.new hs

lemma look_new {p : List Nat} (hp : Full p) :
    look ptr (cell pl'.phys) x p = none := by
  obtain ⟨i, rest, rfl⟩ := List.exists_cons_of_ne_nil (l := p) (by
    rintro rfl
    simpa using hp.1)
  refine look_eq_none_of_absent (q := []) (t := x) (i := i) rfl ?_ ⟨rest, by simp⟩
  rw [h.fresh.cell_zero (hp.2 i (by simp))]
  exact ptr_zero

end

end Planted

lemma full_path (va : Nat) : Full (path va) := ⟨rfl, path_lt va⟩

lemma Good.plant {pl' : Pool} {pa : Nat} (h : Good pl roots held) (ha : pl.alloc = some (pa, pl')) :
    ∃ x, pa = x * 4096 ∧ Planted pl roots held x pl' := by
  obtain ⟨x, rfl, hfresh, hg⟩ := h.alloc ha
  have hsteady := hfresh.steady h
  have hnew : x ∉ roots := by
    intro hx
    have := (h.rc_of_table (f := x) ⟨x, hx, tab_self 3 x⟩).2
    rw [hfresh.free] at this
    omega
  have hlow := hfresh.low
  have hempty : ∀ i, i < 512 → ptr (cell pl'.phys x i) = none := by
    intro i hi
    rw [hfresh.cell_zero hi]
    exact ptr_zero
  have hnp : ¬ Pinned pl' x := by
    rintro ⟨-, hp⟩
    rw [hfresh.rc_self] at hp
    simp [pinned] at hp
  have hrc : rcOf pl' x = 1 := by
    rw [rcOf, if_neg (by omega)]
    exact hfresh.rc_self
  have hgood : Good pl' (insert x roots) held :=
    { hg with bal := hg.bal.insertRoot hnew hrc hnp hempty }
  refine ⟨x, rfl, hnew, hfresh, hgood, hsteady, fun f hd => ?_, hfresh.le⟩
  obtain ⟨hd1, hrc1, hsame⟩ := (hfresh.keeps h).data f hd
  refine ⟨⟨hd1.used, ?_⟩, hrc1, hsame⟩
  rintro ⟨s, hs, hpos⟩
  rcases Finset.mem_insert.mp hs with rfl | hs
  · -- the new tree has no table but its root
    have hfx := hfresh.ne_of_used hd.used
    rw [total_succ, sum_eq_zero] at hpos
    · simp [tabW, Ne.symm hfx] at hpos
    intro i hi
    rw [below, hempty i (Finset.mem_range.mp hi), Option.elim_none]
  · exact hd1.notTable ⟨s, hs, hpos⟩

/-! ### Forking -/

/-- A fork that worked: the tree at `x` is the child's. -/
structure Forked (pl : Pool) (roots : Finset Nat) (held : Nat → Nat) (r x : Nat) (pl' : Pool) :
    Prop where
  new : x ∉ roots
  ne_zero : x ≠ 0
  good : Good pl' (insert x roots) held
  parent : ∀ va, leaf pl'.phys r va = (leaf pl.phys r va).map Pte.readOnly
  child : ∀ va, leaf pl'.phys x va = (leaf pl.phys r va).map Pte.readOnly
  others : ∀ s ∈ roots, s ≠ r → ∀ va, leaf pl'.phys s va = leaf pl.phys s va
  data : ∀ f, Data pl roots f → Data pl' (insert x roots) f ∧ Same pl.phys pl'.phys f
  rc : ∀ f, pl.fa.refcount f ≠ 0 → ¬ HasLeaf pl.phys r f → pl'.fa.refcount f = pl.fa.refcount f
  up : ∀ f, pl.fa.refcount f ≠ 0 → pl.fa.refcount f ≤ pl'.fa.refcount f ∧
    pl'.fa.refcount f ≤ pl.fa.refcount f + total ptr 512 (cell pl.phys) (leafW f) 4 r
  fresh : ∀ f, pl.fa.refcount f = 0 → pl'.fa.refcount f ≤ 1

/-- A fork that ran out of frames: only counts driven to the mark for pinned frames have changed.
-/
structure ForkFailed (pl : Pool) (roots : Finset Nat) (held : Nat → Nat) (r : Nat) (pl' : Pool) :
    Prop where
  good : Good pl' roots held
  steady : Steady pl.phys roots pl'.phys
  data : ∀ f, Data pl roots f → Data pl' roots f ∧ Same pl.phys pl'.phys f
  rc : ∀ f, pl'.fa.refcount f = pl.fa.refcount f ∨ pl'.fa.refcount f = pinned ∧
    pinned ≤ pl.fa.refcount f + total ptr 512 (cell pl.phys) (leafW f) 4 r

section ForkCow

variable {pl : Pool} {roots : Finset Nat} {held : Nat → Nat} {r : Nat} {s : AddrSpace}

variable {pl1 pl2 : Pool} {x : Nat}

section

variable (h : Good pl roots held) (hr : r ∈ roots) (hp : Planted pl roots held x pl1)
include h hr hp

lemma Planted.copied_fresh {S : List Nat → Prop} {b : Nat → Nat}
    (hc : Cloned pl1 (insert x roots) held r x S b pl2) {f : Nat} (hf : pl.fa.refcount f = 0) :
    pl2.fa.refcount f ≤ 1 := by
  have hnl : ¬ HasLeaf pl1.phys r f := by
    rintro ⟨p, e, hfull, hlook, he⟩
    rw [hp.steady.look_eq hr hfull.2 (by rw [hfull.1])] at hlook
    have hpos : 0 < total ptr 512 (cell pl.phys) (refW f) 4 r :=
      ref_of_look hfull.2 (by rw [hfull.1]) hlook he
    exact (h.used_of_refs (lt_of_lt_of_le hpos (Balanced.tab_le_refs hr))).2 hf
  by_cases hfx : f = x
  · subst hfx
    have hone := hp.fresh.rc_self
    rw [hc.rc f (by omega) hnl]
    omega
  · exact hc.fresh f ((hp.fresh.rc_other hfx).trans hf) hnl

lemma forkFailed_of_cloned (hc : Cloned pl1 (insert x roots) held r x (fun p => [] <+: p ∧ p ≠ [])
      (fun f => total ptr 512 (cell pl1.phys) (leafW f) 4 r) pl2) :
    ForkFailed pl roots held r (AddrSpace.destroy ⟨x * 4096⟩ pl2) := by
  obtain ⟨hg3, hphys, hpin⟩ := destroy_spec (s := ⟨x * 4096⟩) hc.good
    (Finset.mem_insert_self x roots) rfl
  rw [Finset.erase_insert hp.new] at hg3
  have hleaf1 : ∀ f, total ptr 512 (cell pl1.phys) (leafW f) 4 r
      = total ptr 512 (cell pl.phys) (leafW f) 4 r := fun f => total_congr (hp.steady.agree hr)
  have hsteady : Steady pl.phys roots (AddrSpace.destroy ⟨x * 4096⟩ pl2).phys := by
    rintro f ⟨s, hs, hpos⟩
    rw [hphys]
    refine (hp.steady f ⟨s, hs, hpos⟩).trans (hc.others s (by simp [hs]) (hp.ne_of_mem hs) f ?_)
    rwa [total_congr (hp.steady.agree hs)]
  have hcount : ∀ f, (AddrSpace.destroy ⟨x * 4096⟩ pl2).fa.refcount f ≠ pinned →
      pl.fa.refcount f ≠ pinned →
      (AddrSpace.destroy ⟨x * 4096⟩ pl2).fa.refcount f = pl.fa.refcount f := by
    intro f hf' hf
    by_cases h0 : f = 0
    · subst h0
      exact absurd (h.low 0 (by omega)) hf
    have h1 := hg3.bal.count f fun hp => hf' hp.2
    have h2 := h.bal.count f fun hp => hf hp.2
    have hrefs : refs ptr 512 (cell (AddrSpace.destroy ⟨x * 4096⟩ pl2).phys) 4 roots held f
        = refs ptr 512 (cell pl.phys) 4 roots held f := by
      unfold refs
      rw [sum_congr rfl fun s hs => total_congr (hsteady.agree hs)]
    rw [hrefs, ← h2] at h1
    simpa [rcOf, h0] using h1
  have hpinned : ∀ f, (AddrSpace.destroy ⟨x * 4096⟩ pl2).fa.refcount f = pinned →
      pl.fa.refcount f = pinned ∨
        pinned ≤ pl.fa.refcount f + total ptr 512 (cell pl.phys) (leafW f) 4 r := by
    intro f hf
    have hf2 := (hpin f).mp hf
    by_cases hfree : pl.fa.refcount f = 0
    · have := hp.copied_fresh h hr hc hfree
      rw [hf2] at this
      simp [pinned] at this
    have hrc1 := hp.fresh.rc_other (hp.fresh.ne_of_used hfree)
    obtain ⟨hlo, hhi⟩ := hc.up f (by rw [hrc1]; exact hfree)
    rw [hf2, hleaf1, hrc1] at hhi
    exact .inr hhi
  refine ⟨hg3, hsteady, fun f hd => ?_, fun f => ?_⟩
  · obtain ⟨hd1, -, hs1⟩ := hp.keeps.data f hd
    obtain ⟨hd2, hs2⟩ := hc.data f hd1
    have hsame := hs1.trans hs2
    rw [← hphys] at hsame
    refine ⟨⟨fun h0 => ?_, (hsteady.isTable_iff f).not.mpr hd.notTable⟩, hsame⟩
    have hnp : pl.fa.refcount f = pinned := by
      by_contra hne
      exact hd.used ((hcount f (by rw [h0]; simp [pinned]) hne).symm.trans h0)
    have h2 := hc.up f hd1.used
    have hle := hc.good.le f
    have hrc1 := (hp.keeps.data f hd).2.1
    have : pl2.fa.refcount f = pinned := by omega
    rw [← hpin, h0] at this
    simp [pinned] at this
  by_cases hf' : (AddrSpace.destroy ⟨x * 4096⟩ pl2).fa.refcount f = pinned
  · rcases hpinned f hf' with hp' | hp'
    · exact .inl (hf'.trans hp'.symm)
    · exact .inr ⟨hf', hp'⟩
  left
  refine hcount f hf' fun hfp => hf' ?_
  have hused : pl1.fa.refcount f ≠ 0 ∧ pl1.fa.refcount f = pinned := by
    have hne : f ≠ x := hp.fresh.ne_of_used (by rw [hfp]; simp [pinned])
    rw [hp.fresh.rc_other hne, hfp]
    simp [pinned]
  have hlo := (hc.up f hused.1).1
  have hle := hc.good.le f
  exact (hpin f).mpr (by omega)

lemma forked_of_cloned {m : PhysMem} (hc : Copied pl1 (insert x roots) held r x []
      (fun f => total ptr 512 (cell pl1.phys) (leafW f) 4 r) (true, pl2))
    (hw : Cleared pl2 (insert x roots) held r (fun p => [] <+: p) m) :
    Forked pl roots held r x { pl2 with phys := m } := by
  obtain ⟨hc, hdone⟩ := hc
  have hrx := hp.ne_of_mem hr
  have hmem : ∀ {s}, s ∈ roots → s ∈ insert x roots := fun hs => by simp [hs]
  have hlook : ∀ s ∈ roots, ∀ p, Full p →
      look ptr (cell pl2.phys) s p = look ptr (cell pl.phys) s p := by
    intro s hs p hfull
    rw [hc.look_other (hmem hs) (hp.ne_of_mem hs) hfull.2 (by rw [hfull.1]),
      hp.steady.look_eq hs hfull.2 (by rw [hfull.1])]
  have hrc1 : ∀ f, pl.fa.refcount f ≠ 0 → pl1.fa.refcount f = pl.fa.refcount f :=
    fun f hf => hp.fresh.rc_other (hp.fresh.ne_of_used hf)
  have hleaf1 : ∀ f, total ptr 512 (cell pl1.phys) (leafW f) 4 r
      = total ptr 512 (cell pl.phys) (leafW f) 4 r := fun f => total_congr (hp.steady.agree hr)
  refine ⟨hp.new, hp.ne_zero, hw.good, fun va => ?_, fun va => ?_, fun s hs hne va => ?_,
    fun f hd => ?_, fun f hf hnl => ?_, fun f hf => ?_, fun f hf => hp.copied_fresh h hr hc hf⟩
  · exact (hw.done _ (full_path va) List.nil_prefix).trans
      (congrArg _ (hlook r hr _ (full_path va)))
  · refine (hw.others x (by simp) _ (full_path va) (.inl (Ne.symm hrx))).trans
      ((hdone rfl _ (full_path va) List.nil_prefix).trans (congrArg _ ?_))
    exact hp.steady.look_eq hr (path_lt va) (by simp)
  · exact (hw.others s (hmem hs) _ (full_path va) (.inl hne)).trans (hlook s hs _ (full_path va))
  · obtain ⟨hd1, -, hs1⟩ := hp.keeps.data f hd
    obtain ⟨hd2, hs2⟩ := hc.data f hd1
    obtain ⟨hd3, -, hs3⟩ := hw.keeps.data f hd2
    exact ⟨hd3, (hs1.trans hs2).trans hs3⟩
  · have hnl1 : ¬ HasLeaf pl1.phys r f := by
      rintro ⟨p, e, hfull, hl, he⟩
      rw [hp.steady.look_eq hr hfull.2 (by rw [hfull.1])] at hl
      exact hnl ⟨p, e, hfull, hl, he⟩
    exact (hc.rc f (by rw [hrc1 f hf]; exact hf) hnl1).trans (hrc1 f hf)
  · have hup := hc.up f (by rw [hrc1 f hf]; exact hf)
    rwa [hrc1 f hf, hleaf1] at hup

end

/-- Frame 0 holds no entries, so that there is nothing to copy below it. -/
lemma entry_null {m : PhysMem} {i : Nat} (h : cell m 0 i = 0) : entry m 0 i = 0#64 := by
  rwa [cell, Nat.zero_mul] at h

lemma cloneSubtree_null (h : ∀ i, i < 512 → cell pl.phys 0 i = 0) (L t : Nat) :
    cloneSubtree (L + 1) 0 t pl = (true, pl) := by
  have hloop : ∀ xs : List Nat, (∀ i ∈ xs, i < 512) →
      cloneEntries (cloneSubtree L) (L == 0) 0 t xs pl = (true, pl) := by
    intro xs hlt
    induction xs with
    | nil => rfl
    | cons i xs ih =>
      rw [cloneEntries, entry_null (h i (hlt i (by simp)))]
      exact ih fun j hj => hlt j (by simp [hj])
  exact hloop _ fun _ hi => List.mem_range.mp hi

lemma clearLeafWrite_null {m : PhysMem} (h : ∀ i, i < 512 → cell m 0 i = 0) (L : Nat) :
    clearLeafWrite (L + 1) 0 m = m := by
  rw [clearLeafWrite_succ]
  have hloop : ∀ xs : List Nat, (∀ i ∈ xs, i < 512) →
      xs.foldl (clearSlot (clearLeafWrite L) (L == 0) 0) m = m := by
    intro xs hlt
    induction xs with
    | nil => rfl
    | cons i xs ih =>
      have hone : clearSlot (clearLeafWrite L) (L == 0) 0 m i = m := by
        rw [clearSlot, entry_null (h i (hlt i (by simp)))]
        simp only [present_zero, Bool.not_false, if_true]
      rw [List.foldl_cons, hone]
      exact ih fun j hj => hlt j (by simp [hj])
  exact hloop _ fun _ hi => List.mem_range.mp hi

lemma forked_null (h : Good pl roots held)
    (hp : Planted pl roots held x pl1) : Forked pl roots held 0 x pl1 := by
  have hnone : ∀ va, (leaf pl.phys 0 va).map readOnly = none := by
    intro va
    rw [h.leaf_null va]
    rfl
  refine ⟨hp.new, hp.ne_zero, hp.good, fun va => ?_, fun va => ?_, fun s hs _ va => ?_,
    fun f hd => ?_, fun f hf _ => ?_, fun f hf => ?_, fun f hf => ?_⟩
  · rw [hnone]; exact hp.good.leaf_null va
  · rw [hnone]; exact hp.look_new (full_path va)
  · exact hp.steady.quiet s hs va
  · exact ⟨(hp.keeps.data f hd).1, (hp.keeps.data f hd).2.2⟩
  · exact hp.fresh.rc_other (hp.fresh.ne_of_used hf)
  · rw [hp.fresh.rc_other (hp.fresh.ne_of_used hf)]
    omega
  · rw [hp.fresh.rc f]
    split <;> omega

/-- **`forkCow`.** Both sides have read-only leaves where the parent had leaves; or frames ran out,
and nothing changed. -/
lemma forkCow_spec (h : Good pl roots held) (hr : r = 0 ∨ r ∈ roots) (hs : s.pml4 = r * 4096) :
    match s.forkCow pl with
    | (some child, pl') => ∃ x, child = ⟨x * 4096⟩ ∧ Forked pl roots held r x pl'
    | (none, pl') => ForkFailed pl roots held r pl' := by
  cases ha : pl.alloc with
  | none =>
    simp only [AddrSpace.forkCow, ha]
    exact ⟨h, fun _ _ _ _ => rfl, fun _ hd => ⟨hd, fun _ _ => rfl⟩, fun _ => .inl rfl⟩
  | some res =>
    obtain ⟨pa, pl1⟩ := res
    obtain ⟨x, rfl, hp⟩ := h.plant ha
    rcases hr with rfl | hr
    · simp only [AddrSpace.forkCow, ha, hs, Nat.zero_mul, cloneSubtree_null hp.good.null,
        clearLeafWrite_null hp.good.null]
      exact ⟨x, rfl, forked_null h hp⟩
    have hmem : r ∈ insert x roots := by simp [hr]
    have hcopy := cloneSubtree_spec hmem (Finset.mem_insert_self x roots) (hp.ne_of_mem hr) 3
      (q := []) rfl (by simp) hp.good rfl rfl fun j hj => hp.fresh.cell_zero hj
    cases hres : cloneSubtree 4 (r * 4096) (x * 4096) pl1 with
    | mk ok pl2 =>
      rw [hres] at hcopy
      simp only [AddrSpace.forkCow, ha, hs, hres]
      cases ok with
      | false => exact forkFailed_of_cloned h hr hp hcopy.1
      | true =>
        refine ⟨x, rfl, forked_of_cloned h hr hp hcopy ?_⟩
        exact clearLeafWrite_spec hmem 3 (q := []) rfl (by simp) hcopy.1.good rfl

end ForkCow

end NixVm
