/-
What the page-table operations do, as seen by a walk.

Each operation of an address space is read here as a change of that leaf: `map` sets it, `unmap`
takes it away, `protect` changes its flags, and everything else any of them does, linking tables
and reclaiming them, is invisible.
-/
import NixVm.Proofs.Pool
import NixVm.Vcpu.Mem

namespace NixVm

open Finset Radix AddrSpace Pte List Option

/-! ### Addresses as paths -/

lemma tableIndex_eq (va level : Nat) :
    tableIndex va level = va / 2 ^ (12 + 9 * (level - 1)) % 512 := by
  rw [tableIndex, Nat.shiftRight_eq_div_pow]
  exact Nat.and_two_pow_sub_one_eq_mod _ 9

lemma tableIndex_lt (va level : Nat) : tableIndex va level < 512 := by
  rw [tableIndex_eq]
  exact Nat.mod_lt _ (by omega)

def upper (va : Nat) : List Nat := [tableIndex va 4, tableIndex va 3, tableIndex va 2]

/-- The slots a walk of `va` goes through. -/
def path (va : Nat) : List Nat := upper va ++ [tableIndex va 1]

lemma path_eq (va : Nat) :
    path va = [tableIndex va 4, tableIndex va 3, tableIndex va 2, tableIndex va 1] := rfl

lemma upper_lt (va : Nat) : ∀ j ∈ upper va, j < 512 := by
  simp [upper, tableIndex_lt]

lemma path_lt (va : Nat) : ∀ j ∈ path va, j < 512 := by
  simp [path, upper, tableIndex_lt]

@[simp] lemma length_path (va : Nat) : (path va).length = 4 := rfl

variable {va r t i pa x : Nat} {m : PhysMem} {e : BitVec 64} {s : AddrSpace} {roots : Finset Nat}
  {pl pl' : Pool} {held : Nat → Nat} {q : List Nat}

lemma path_inj {vb : Nat} : path va = path vb ↔ va / 4096 % 2 ^ 36 = vb / 4096 % 2 ^ 36 := by
  simp only [path_eq, List.cons.injEq, tableIndex_eq, and_true, Nat.reduceSub, Nat.reduceMul,
    Nat.reduceAdd, Nat.reducePow]
  omega

/-! ### The leaf a walk finds -/

def leaf (m : PhysMem) (r va : Nat) : Option (BitVec 64) := look ptr (cell m) r (path va)

lemma leaf_present (h : leaf m r va = some e) : ∃ f, ptr e = some f := by
  rw [leaf, path, look_append_single] at h
  obtain ⟨t, -, ht⟩ := bind_eq_some_iff.mp h
  split at ht
  next hsome =>
    simp only [Option.some.injEq] at ht
    subst ht
    exact isSome_iff_exists.mp hsome
  · simp at ht

lemma leaf_eq_some : leaf m r va = some e ↔ ∃ t, tableAt ptr (cell m) r (upper va) = some t ∧
      cell m t (tableIndex va 1) = e ∧ ptr e ≠ none := by
  rw [leaf, path, look_append_single, bind_eq_some_iff]
  refine exists_congr fun t => and_congr_right fun _ => ?_
  by_cases hs : (ptr (cell m t (tableIndex va 1))).isSome
  · simp only [hs, if_true, Option.some.injEq]
    refine ⟨fun h => ⟨h, ?_⟩, fun h => h.1⟩
    rw [← h]
    exact isSome_iff_ne_none.mp hs
  simp only [hs]
  simp only [not_isSome_iff_eq_none] at hs
  simp only [Bool.false_eq_true, if_false, reduceCtorEq, false_iff, not_and, not_not]
  rintro rfl
  exact hs

lemma next_eq (m : PhysMem) (t i : Nat) :
    next m (t * 4096) i = (ptr (cell m t i)).map (· * 4096) := by
  change (if present (cell m t i) then some (addr (cell m t i)) else none) = _
  unfold ptr
  split
  · rw [map_some, addr_div_mul]
  · rfl

lemma leafPtePa_eq (hs : s.pml4 = r * 4096) (m : PhysMem) (va : Nat) :
    s.leafPtePa m va = (tableAt ptr (cell m) r (upper va)).map
      fun t => t * 4096 + tableIndex va 1 * 8 := by
  unfold leafPtePa upper
  simp only [hs, next_eq, tableAt_cons, tableAt_nil]
  cases ptr (cell m r (tableIndex va 4)) with
  | none => rfl
  | some x =>
    simp only [map_some, bind_some, next_eq]
    cases ptr (cell m x (tableIndex va 3)) with
    | none => rfl
    | some y =>
      simp only [map_some, bind_some, next_eq]
      cases ptr (cell m y (tableIndex va 2)) with
      | none => rfl
      | some z => rfl

def translationOf (e : BitVec 64) (va : Nat) : Translation where
  paddr := Pte.addr e ||| va % 4096
  prot := leafProt e
  supervisor := !Pte.user e

lemma translate_eq (hs : s.pml4 = r * 4096) (m : PhysMem) (va : Nat) :
    s.translate va m = (leaf m r va).map fun e => translationOf e va := by
  unfold AddrSpace.translate
  rw [leafPtePa_eq hs, leaf, path, look_append_single]
  cases tableAt ptr (cell m) r (upper va) with
  | none => rfl
  | some t =>
    simp only [map_some, bind_some]
    change (if !present (cell m t (tableIndex va 1)) then none
      else some (translationOf (cell m t (tableIndex va 1)) va)) = _
    unfold ptr
    cases present (cell m t (tableIndex va 1)) <;> simp

lemma paddr_eq (e : BitVec 64) (va : Nat) : (translationOf e va).paddr = addr e + va % 4096 := by
  have hdiv := addr_div_mul e
  have hor := Nat.two_pow_add_eq_or_of_lt (i := 12) (Nat.mod_lt va (by omega)) (addr e / 4096)
  rw [mul_comm] at hor
  simp only [translationOf]
  rw [← hdiv]
  exact hor.symm

lemma pageOf_paddr (e : BitVec 64) (va : Nat) : pageOf (translationOf e va).paddr = addr e := by
  have hmod := addr_mod e
  rw [paddr_eq, pageOf]
  omega

/-! ### What holds of a leaf -/

def Quiet (m : PhysMem) (roots : Finset Nat) (m' : PhysMem) : Prop :=
  ∀ r ∈ roots, ∀ va, leaf m' r va = leaf m r va

lemma Quiet.trans {m' m'' : PhysMem} (h : Quiet m roots m')
    (h' : Quiet m' roots m'') : Quiet m roots m'' :=
  fun r hr va => (h' r hr va).trans (h r hr va)

lemma Steady.quiet {m' : PhysMem} (h : Steady m roots m') : Quiet m roots m' :=
  fun _ hr va => h.look_eq hr (path_lt va) (by simp)

namespace Good

variable {pl pl' : Pool} {roots : Finset Nat} {held : Nat → Nat} {r : Nat}

lemma used_of_leaf (h : Good pl roots held) (hr : r ∈ roots) {va f : Nat} {e : BitVec 64}
    (hl : leaf pl.phys r va = some e) (he : ptr e = some f) : f ≠ 0 ∧ pl.fa.refcount f ≠ 0 := by
  refine h.used_of_refs ?_
  have hpos : 0 < total ptr 512 (cell pl.phys) (refW f) 4 r :=
    ref_of_look (path_lt va) (by simp) hl he
  exact lt_of_lt_of_le hpos (Balanced.tab_le_refs hr)

lemma leaf_null (h : Good pl roots held) (va : Nat) : leaf pl.phys 0 va = none := by
  refine look_eq_none_of_absent (q := []) (t := 0) (i := tableIndex va 4) rfl ?_
    (by simp [path, upper])
  rw [h.null _ (tableIndex_lt va 4)]
  simp

end Good

/-! ### Following an entry, or linking a table -/

lemma Slot.tableAt_store (hs : Slot pl.phys roots r q t i) (h : Good pl roots held) (e : BitVec 64)
    {p : List Nat} (hp : ∀ j ∈ p, j < 512) (hlen : p.length ≤ 4) (hnot : ¬ q ++ [i] <+: p) :
    tableAt ptr (cell (pl.store (t * 4096 + i * 8) e).phys) r p
      = tableAt ptr (cell pl.phys) r p := by
  by_cases hne : p = []
  · subst hne; rfl
  rw [tableAt_eq_look hne, tableAt_eq_look hne, hs.look_store h e hs.root hp hlen,
    if_neg fun hc => hnot hc.2]

lemma nextOrAlloc_cell (t i : Nat) (pl : Pool) : nextOrAlloc (t * 4096) i pl =
    if present (cell pl.phys t i) then some (addr (cell pl.phys t i), pl) else match pl.alloc with
      | none => none
      | some (child, pl) => some (child, pl.store (t * 4096 + i * 8) (make child interior)) := rfl

lemma nextOrAlloc_spec (h : Good pl roots held) (hs : Slot pl.phys roots r q t i)
    (hq : q.length ≤ 2) (heq : nextOrAlloc (t * 4096) i pl = some (pa, pl')) :
    ∃ x, pa = x * 4096 ∧ tableAt ptr (cell pl'.phys) r (q ++ [i]) = some x ∧
      Good pl' roots held ∧ Keeps pl roots pl' roots ∧ Quiet pl.phys roots pl'.phys := by
  have hpath := bounded_concat hs.path hs.lt
  rw [nextOrAlloc_cell] at heq
  split at heq
  · -- the entry is there
    rename_i hpres
    obtain ⟨rfl, rfl⟩ := heq
    refine ⟨addr (cell pl.phys t i) / 4096, (addr_div_mul _).symm, ?_, h,
      Keeps.refl .., fun _ _ _ => rfl⟩
    rw [tableAt_append, hs.at_table]
    simp [ptr, hpres]
  -- it is not: a fresh table is linked
  rename_i hpres
  cases ha : pl.alloc with
  | none => simp [ha] at heq
  | some res =>
    obtain ⟨child, pl1⟩ := res
    simp only [ha, Option.some.injEq, Prod.mk.injEq] at heq
    obtain ⟨rfl, rfl⟩ := heq
    obtain ⟨f, rfl, hfresh, hg1⟩ := h.alloc ha
    have hptr : ptr (make (f * 4096) interior) = some f :=
      ptr_make hfresh.lt clear_interior (by simp)
    have hcell : ptr (cell pl1.phys t i) = none := by
      rw [((hfresh.steady h) t hs.isTable).cell hs.lt, ptr_eq_none]
      simpa using hpres
    have hs1 : Slot pl1.phys roots r q t i :=
      { hs with at_table := ((hfresh.steady h).tableAt_eq hs.root hs.path
          (by omega)).trans hs.at_table }
    rw [← bumpEntry_some hptr] at hg1
    have hlink : Linkable pl1 q (make (f * 4096) interior) := by
      refine .inr fun x hx => ?_
      rw [hptr, Option.some.injEq] at hx
      subst hx
      exact ⟨hfresh.rc_self, fun j hj => hfresh.cell_zero hj⟩
    have hbare : Bare ptr 512 (cell pl1.phys) (3 - q.length) (cell pl1.phys t i) := by
      intro x hx
      rw [hcell] at hx
      simp at hx
    have hg2 := hg1.link hs1 hbare hlink
    rw [bumpEntry_none hcell] at hg2
    refine ⟨f, rfl, ?_, hg2, ?_, ?_⟩
    · rw [tableAt_eq_look (by simp), hs1.look_store hg1 _ hs.root hpath (by simp; omega),
        if_pos ⟨rfl, prefix_refl _⟩]
      simp [follow, hptr]
    · refine ⟨fun g hd => ?_, hfresh.le⟩
      have hgf := hfresh.ne_of_used hd.used
      obtain ⟨hd1, hrc1, hs1'⟩ := (hfresh.keeps h).data g hd
      have hne : ptr (make (f * 4096) interior) ≠ some g := by
        rw [hptr]
        simpa using Ne.symm hgf
      obtain ⟨hd2, hs2'⟩ := hg1.keeps_link hs1 hlink hd1 (.inr hne)
      exact ⟨hd2, hrc1, hs1'.trans hs2'⟩
    intro s hmem va
    have hquiet := (hfresh.steady h).quiet s hmem va
    unfold leaf at hquiet ⊢
    rw [hs1.look_store hg1 _ hmem (path_lt va) (by simp), ← hquiet]
    split
    next hthrough =>
      rw [hthrough.1, look_eq_none_of_absent hs1.at_table hcell hthrough.2]
      refine (hg1.bare_new hs1 hlink).follow_eq ?_ ?_ ?_
      · exact fun j hj => path_lt va j (mem_of_mem_drop hj)
      · simp only [ne_eq, drop_eq_nil_iff, length_path]
        omega
      · simp only [length_drop, length_path]
        omega
    · rfl

/-! ### Setting a leaf -/

lemma Slot.of_upper (hr : r ∈ roots) (hat : tableAt ptr (cell m) r (upper va) = some t) :
    Slot m roots r (upper va) t (tableIndex va 1) :=
  ⟨hr, tableIndex_lt va 1, upper_lt va, by simp [upper], hat⟩

lemma leaf_store (h : Good pl roots held) (hs : Slot pl.phys roots r (upper va) t (tableIndex va 1))
    (e : BitVec 64) {s : Nat} (hmem : s ∈ roots) (vb : Nat) :
    leaf (pl.store (t * 4096 + tableIndex va 1 * 8) e).phys s vb
      = if s = r ∧ path vb = path va then (if (ptr e).isSome then some e else none)
        else leaf pl.phys s vb := by
  unfold leaf
  rw [hs.look_store h e hmem (path_lt vb) (by simp)]
  have hpre : upper va ++ [tableIndex va 1] <+: path vb ↔ path vb = path va := by
    refine ⟨fun hp => (hp.eq_of_length rfl).symm, fun hp => ?_⟩
    rw [hp]
    exact prefix_refl _
  by_cases hc : s = r ∧ path vb = path va
  · rw [if_pos hc, if_pos ⟨hc.1, hpre.mpr hc.2⟩]
    rfl
  · rw [if_neg hc, if_neg fun hc' => hc ⟨hc'.1, hpre.mp hc'.2⟩]

def bumpLeaf (held : Nat → Nat) : Option (BitVec 64) → Nat → Nat
  | none => held
  | some e => bumpEntry ptr held e

/-- What `map` of frame `f` at `va` leaves behind when it succeeds. -/
structure MapDone (pl : Pool) (roots : Finset Nat) (held : Nat → Nat) (r va : Nat) (e : BitVec 64)
    (old : Option Nat) (pl' : Pool) : Prop where
  old_eq : old = (leaf pl.phys r va).map Pte.addr
  good : Good pl' roots (bumpLeaf held (leaf pl.phys r va))
  keeps : Keeps pl roots pl' roots
  leaf_eq : ∀ s ∈ roots, ∀ vb, leaf pl'.phys s vb
    = if s = r ∧ path vb = path va then some e else leaf pl.phys s vb

structure MapFailed (pl : Pool) (roots : Finset Nat) (held : Nat → Nat) (err : MapErr)
    (pl' : Pool) : Prop where
  err_eq : err = .outOfFrames
  good : Good pl' roots held
  keeps : Keeps pl roots pl' roots
  quiet : Quiet pl.phys roots pl'.phys

lemma link_leaf (va : Nat) (h : Good pl roots (bumpEntry ptr held e)) (hr : r ∈ roots)
    (hat : tableAt ptr (cell pl.phys) r (upper va) = some t) (he : (ptr e).isSome = true) :
    MapDone pl roots held r va e (if present (cell pl.phys t (tableIndex va 1)) then
        some (addr (cell pl.phys t (tableIndex va 1))) else none)
      (pl.store (t * 4096 + tableIndex va 1 * 8) e) := by
  have hs := Slot.of_upper hr hat
  have hlink : Linkable pl (upper va) e := .inl rfl
  have hbare : Bare ptr 512 (cell pl.phys) (3 - (upper va).length)
      (cell pl.phys t (tableIndex va 1)) := fun _ _ => .inl rfl
  have hleaf : leaf pl.phys r va
      = if (ptr (cell pl.phys t (tableIndex va 1))).isSome then
          some (cell pl.phys t (tableIndex va 1)) else none := by
    rw [leaf, path, look_append_single, hat]
    rfl
  refine ⟨?_, ?_, ⟨fun g hd => ?_, fun _ => le_max_right ..⟩, fun s hmem vb => ?_⟩
  · rw [hleaf]
    unfold ptr
    cases present (cell pl.phys t (tableIndex va 1)) <;> simp
  · have hg := h.link hs hbare hlink
    rw [hleaf]
    cases hp : ptr (cell pl.phys t (tableIndex va 1)) with
    | none =>
      rw [bumpEntry_none hp] at hg
      simpa [bumpLeaf] using hg
    | some x => simpa [bumpLeaf] using hg
  · have ⟨hd', hsame⟩ := h.keeps_link hs hlink hd (.inl rfl)
    exact ⟨hd', rfl, hsame⟩
  · rw [leaf_store h hs e hmem vb, if_pos he]

lemma MapDone.after {pl1 : Pool} {old : Option Nat} (hr : r ∈ roots)
    (hk : Keeps pl roots pl1 roots) (hq : Quiet pl.phys roots pl1.phys)
    (h : MapDone pl1 roots held r va e old pl') : MapDone pl roots held r va e old pl' := by
  have hleaf := hq r hr va
  refine ⟨by rw [← hleaf]; exact h.old_eq, by rw [← hleaf]; exact h.good, hk.trans h.keeps,
    fun s hs vb => ?_⟩
  rw [h.leaf_eq s hs vb, hq s hs vb]

/-- **`map`.** The caller's reference to `f` goes into the tree and that of the old leaf comes
back; or the pool runs out, unseen. -/
lemma map_spec {f : Nat} (h : Good pl roots (bump held f)) (hr : r ∈ roots) (hs : s.pml4 = r * 4096)
    (hva : va % 4096 = 0) (prot : Prot) (supervisor : Bool) :
    match s.map va (f * 4096) prot supervisor pl with
    | (.ok old, pl') => MapDone pl roots held r va
        (make (f * 4096) (leafFlags prot supervisor)) old pl'
    | (.error err, pl') => MapFailed pl roots (bump held f) err pl' := by
  have ⟨hf0, hfused⟩ := h.used_of_held (bump_self_pos held f)
  have hptr := ptr_leaf (h.frame_lt hfused) prot supervisor
  have hr0 : s.pml4 ≠ 0 := by
    have hroot := (h.rc_of_table (f := r) ⟨r, hr, tab_self 3 r⟩).1
    rw [hs]; omega
  have htab0 : Slot pl.phys roots r [] r (tableIndex va 4) :=
    ⟨hr, tableIndex_lt va 4, by simp, by simp, rfl⟩
  unfold AddrSpace.map
  rw [if_neg hr0, if_neg (by omega), if_neg (by omega), hs]
  cases h1 : AddrSpace.nextOrAlloc (r * 4096) (tableIndex va 4) pl with
  | none => exact ⟨rfl, h, Keeps.refl .., fun _ _ _ => rfl⟩
  | some res =>
    obtain ⟨pdpt, pl1⟩ := res
    obtain ⟨x1, rfl, hat1, hg1, hk1, hq1⟩ := nextOrAlloc_spec h htab0 (by simp) h1
    have hs1 : Slot pl1.phys roots r [tableIndex va 4] x1 (tableIndex va 3) :=
      ⟨hr, tableIndex_lt va 3, by simp [tableIndex_lt], by simp, hat1⟩
    dsimp only
    cases h2 : AddrSpace.nextOrAlloc (x1 * 4096) (tableIndex va 3) pl1 with
    | none => exact ⟨rfl, hg1, hk1, hq1⟩
    | some res =>
      obtain ⟨pd, pl2⟩ := res
      obtain ⟨x2, rfl, hat2, hg2, hk2, hq2⟩ := nextOrAlloc_spec hg1 hs1 (by simp) h2
      have hs2 : Slot pl2.phys roots r [tableIndex va 4, tableIndex va 3] x2
          (tableIndex va 2) :=
        ⟨hr, tableIndex_lt va 2, by simp [tableIndex_lt], by simp, hat2⟩
      dsimp only
      cases h3 : AddrSpace.nextOrAlloc (x2 * 4096) (tableIndex va 2) pl2 with
      | none => exact ⟨rfl, hg2, hk1.trans hk2, hq1.trans hq2⟩
      | some res =>
        obtain ⟨pt, pl3⟩ := res
        obtain ⟨x3, rfl, hat3, hg3, hk3, hq3⟩ := nextOrAlloc_spec hg2 hs2 (by simp) h3
        rw [← bumpEntry_some hptr] at hg3
        have hdone := link_leaf va hg3 hr hat3 (by rw [hptr]; rfl)
        exact MapDone.after hr ((hk1.trans hk2).trans hk3) ((hq1.trans hq2).trans hq3) hdone

/-! ### Changing the flags of a leaf -/

/-- Rewriting an entry so that it points where it did. -/
lemma Good.restore (h : Good pl roots held) (hs : Slot pl.phys roots r q t i)
    (he : ptr e = ptr (cell pl.phys t i)) : Good (pl.store (t * 4096 + i * 8) e) roots held ∧
      Keeps pl roots (pl.store (t * 4096 + i * 8) e) roots := by
  have hsame : ∀ f j, j < 512 →
      ptr (cell (pl.store (t * 4096 + i * 8) e).phys f j) = ptr (cell pl.phys f j) := by
    intro f j hj
    rw [wrote_store pl t hs.lt e f j hj]
    split
    next hc => rw [hc.1, hc.2, he]
    · rfl
  have ht0 : 0 ≠ t := Ne.symm (h.rc_of_table hs.isTable).1
  refine ⟨h.rewrite hsame (hs.same e ht0), fun f hd => ?_, fun _ => le_max_right ..⟩
  have hft : f ≠ t := by
    rintro rfl
    exact hd.notTable hs.isTable
  refine ⟨⟨hd.used, fun hc => hd.notTable ?_⟩, rfl, hs.same e hft⟩
  obtain ⟨s, hmem, hpos⟩ := hc
  rw [total_congr_ptr hsame] at hpos
  exact ⟨s, hmem, hpos⟩

/-- **`protect`.**  The leaf, if there is one, gets new flags. -/
lemma protect_spec (h : Good pl roots held) (hr : r ∈ roots) (hs : s.pml4 = r * 4096)
    (va : Nat) (prot : Prot) (supervisor : Bool) :
    (s.protect va prot supervisor pl).1 = (leaf pl.phys r va).isSome ∧
      Good (s.protect va prot supervisor pl).2 roots held ∧
      Keeps pl roots (s.protect va prot supervisor pl).2 roots ∧
      (s.protect va prot supervisor pl).2.fa = pl.fa ∧
      ∀ s' ∈ roots, ∀ vb, leaf (s.protect va prot supervisor pl).2.phys s' vb
        = if s' = r ∧ path vb = path va then
            (leaf pl.phys r va).map fun e => make (addr e) (leafFlags prot supervisor)
          else leaf pl.phys s' vb := by
  unfold protect
  rw [leafPtePa_eq hs]
  have hnone : leaf pl.phys r va = none → ∀ s' ∈ roots, ∀ vb, leaf pl.phys s' vb
      = if s' = r ∧ path vb = path va then
          (leaf pl.phys r va).map fun e => make (addr e) (leafFlags prot supervisor)
        else leaf pl.phys s' vb := by
    intro hl s' _ vb
    split
    next hc =>
      rw [hl, hc.1, leaf, hc.2]
      exact hl
    · rfl
  cases hat : tableAt ptr (cell pl.phys) r (upper va) with
  | none =>
    have hl : leaf pl.phys r va = none := by
      rw [leaf, path, look_append_single, hat]; rfl
    exact ⟨by rw [hl]; rfl, h, Keeps.refl .., rfl, hnone hl⟩
  | some t =>
    simp only [map_some]
    have hslot := Slot.of_upper hr hat
    have hlook : leaf pl.phys r va
        = if (ptr (cell pl.phys t (tableIndex va 1))).isSome then
            some (cell pl.phys t (tableIndex va 1)) else none := by
      rw [leaf, path, look_append_single, hat]; rfl
    have hread : pl.phys.readU64 (t * 4096 + tableIndex va 1 * 8)
        = cell pl.phys t (tableIndex va 1) := rfl
    rw [hread]
    cases hp : ptr (cell pl.phys t (tableIndex va 1)) with
    | none =>
      have hl : leaf pl.phys r va = none := by rw [hlook, hp]; rfl
      have hpres := ptr_eq_none.mp hp
      rw [hpres, if_pos (by rfl)]
      exact ⟨by rw [hl]; rfl, h, Keeps.refl .., rfl, hnone hl⟩
    | some f =>
      have hl : leaf pl.phys r va = some (cell pl.phys t (tableIndex va 1)) := by
        rw [hlook, hp]; rfl
      have ⟨hpres, haddr⟩ := ptr_eq_some.mp hp
      have hlt := h.frame_lt (h.used_of_leaf hr hl hp).2
      have hptr := ptr_leaf hlt prot supervisor
      simp only [hpres, Bool.not_true, Bool.false_eq_true, if_false, haddr]
      have ⟨hg, hk⟩ := h.restore hslot
        (e := make (f * 4096) (leafFlags prot supervisor)) (by rw [hptr, hp])
      refine ⟨by simp [hl], hg, hk, rfl, fun s' hmem vb => ?_⟩
      rw [leaf_store h hslot _ hmem vb, hptr, hl, map_some, haddr]
      rfl

/-! ### Taking a leaf out -/

lemma tableIsEmpty_iff (m : PhysMem) (t : Nat) :
    tableIsEmpty m (t * 4096) = true ↔ ∀ i, i < 512 → cell m t i = 0 := by
  simp only [tableIsEmpty, List.all_eq_true, List.mem_range, beq_iff_eq]
  rfl

lemma reclaim (h : Good pl roots held) (hs : Slot pl.phys roots r q t i)
    (hq : q.length ≤ 2) (hx : ptr (cell pl.phys t i) = some x)
    (hempty : ∀ j, j < 512 → cell pl.phys x j = 0) :
    Good ((pl.store (t * 4096 + i * 8) 0#64).free (x * 4096)) roots held ∧
      Keeps pl roots ((pl.store (t * 4096 + i * 8) 0#64).free (x * 4096)) roots ∧
      Quiet pl.phys roots (pl.store (t * 4096 + i * 8) 0#64).phys := by
  have hg0 : Good pl roots (bumpEntry ptr held 0#64) := by
    rw [bumpEntry_none ptr_zero]; exact h
  have hbare : Bare ptr 512 (cell pl.phys) (3 - q.length) (cell pl.phys t i) := by
    intro y hy
    rw [hx, Option.some.injEq] at hy
    subst hy
    exact .inr fun j hj => by rw [hempty j hj]; exact ptr_zero
  have hlink : Linkable pl q 0#64 := .inr fun y hy => by simp at hy
  have hg1 := hg0.link hs hbare hlink
  rw [bumpEntry_some hx] at hg1
  have hxt : IsTable pl.phys roots x := by
    exact ⟨r, hs.root, tab_of_tableAt (bounded_concat hs.path hs.lt) (by simp; omega)
      (tableAt_concat hs.at_table hx)⟩
  refine ⟨hg1.release, ⟨fun g hd => ?_,
    fun g => le_trans (hg1.release_le g) (le_max_right ..)⟩, fun s hmem va => ?_⟩
  · have hgx : g ≠ x := by
      rintro rfl
      exact hd.notTable hxt
    have ⟨hd1, hsame⟩ := hg0.keeps_link hs hlink hd (.inr (by simp))
    have hrc : ((pl.store (t * 4096 + i * 8) 0#64).free (x * 4096)).fa.refcount g
        = pl.fa.refcount g := by
      rw [hg1.release_rc g, if_neg fun hc => hgx hc.1]
      rfl
    exact ⟨⟨by rw [hrc]; exact hd.used, hd1.notTable⟩, hrc, hsame⟩
  unfold leaf
  rw [hs.look_store h _ hmem (path_lt va) (by simp)]
  split
  · -- below the unlinked table there was nothing
    rename_i hthrough
    obtain ⟨rest, hrest⟩ := hthrough.2
    have hne : rest ≠ [] := by
      rintro rfl
      have := congrArg List.length hrest
      simp at this
      omega
    obtain ⟨j, rest, rfl⟩ := exists_cons_of_ne_nil hne
    have hj : j < 512 := path_lt va j (by rw [← hrest]; simp)
    have hat : tableAt ptr (cell pl.phys) r (q ++ [i]) = some x := by
      rw [tableAt_append, hs.at_table]
      simp [hx]
    rw [hthrough.1, look_eq_none_of_absent hat (i := j) (by rw [hempty j hj]; exact ptr_zero)
      (by rw [← hrest]; simp)]
    cases (path va).drop (q.length + 1) <;> simp [follow]
  · rfl

/-- The leaf `e` of `va` is out of the tree at `r`, and its reference with the caller. -/
structure Took (pl : Pool) (roots : Finset Nat) (held : Nat → Nat) (r va : Nat) (e : BitVec 64)
    (pl' : Pool) : Prop where
  good : Good pl' roots (bumpEntry ptr held e)
  keeps : Keeps pl roots pl' roots
  leaf_eq : ∀ s ∈ roots, ∀ vb, leaf pl'.phys s vb
    = if s = r ∧ path vb = path va then none else leaf pl.phys s vb

lemma chain {pt : Nat} (hat : tableAt ptr (cell m) r (upper va) = some pt) :
    ∃ pdpt pd, ptr (cell m r (tableIndex va 4)) = some pdpt ∧
      ptr (cell m pdpt (tableIndex va 3)) = some pd ∧
      ptr (cell m pd (tableIndex va 2)) = some pt := by
  simp only [upper, tableAt_cons, tableAt_nil] at hat
  have ⟨pdpt, h1, hat⟩ := bind_eq_some_iff.mp hat
  have ⟨pd, h2, hat⟩ := bind_eq_some_iff.mp hat
  have ⟨x, h3, hat⟩ := bind_eq_some_iff.mp hat
  simp only [Option.some.injEq] at hat
  subst hat
  exact ⟨pdpt, pd, h1, h2, h3⟩

lemma Took.up {pl1 : Pool} (h : Took pl roots held r va e pl1)
    (hs : Slot pl1.phys roots r q t i) (hq : q.length ≤ 2) (hx : ptr (cell pl1.phys t i) = some x)
    (hempty : tableIsEmpty pl1.phys (x * 4096) = true) :
    Took pl roots held r va e ((pl1.store (t * 4096 + i * 8) 0#64).free (x * 4096)) := by
  have ⟨hg, hk, hquiet⟩ := reclaim h.good hs hq hx ((tableIsEmpty_iff ..).mp hempty)
  refine ⟨hg, h.keeps.trans hk, fun s hmem vb => ?_⟩
  exact (hquiet s hmem vb).trans (h.leaf_eq s hmem vb)

lemma Slot.above {k : Nat} (hs : Slot pl.phys roots r (q ++ [k]) t i) (h : Good pl roots held)
    {u : Nat} (hu : tableAt ptr (cell pl.phys) r q = some u) :
    Slot (pl.store (t * 4096 + i * 8) 0#64).phys roots r q u k ∧
      ptr (cell (pl.store (t * 4096 + i * 8) 0#64).phys u k) = some t := by
  have hlen := hs.len
  simp only [length_append, length_singleton] at hlen
  have hq : ∀ j ∈ q, j < 512 := fun j hj => hs.path j (by simp [hj])
  have hlow : ∀ p : List Nat, p.length ≤ q.length + 1 → ¬ q ++ [k] ++ [i] <+: p := by
    intro p hp hc
    have := hc.length_le
    simp at this
    omega
  have hatq : tableAt ptr (cell (pl.store (t * 4096 + i * 8) 0#64).phys) r q = some u := by
    rw [hs.tableAt_store h _ hq (by omega) (hlow q (by omega))]
    exact hu
  refine ⟨⟨hs.root, hs.path k (by simp), hq, by omega, hatq⟩, ?_⟩
  have hat := hs.tableAt_store h 0#64 hs.path (by simp; omega) (hlow _ (by simp))
  rw [hs.at_table, tableAt_append, hatq] at hat
  simpa using hat

/-- **`unmap`.**  The leaf, if there is one, is gone, and its frame with the caller. -/
lemma unmap_spec (h : Good pl roots held) (hr : r ∈ roots) (hs : s.pml4 = r * 4096)
    (hl : leaf pl.phys r va = some e) :
    ∃ pl', s.unmap va pl = (some (addr e), pl') ∧ Took pl roots held r va e pl' := by
  have ⟨pt, hat, hcell, hsome⟩ := leaf_eq_some.mp hl
  have ⟨pdpt, pd, h4, h3, h2⟩ := chain hat
  have hpres : present e = true := by
    cases hp : present e with
    | true => rfl
    | false => exact absurd (ptr_eq_none.mpr hp) hsome
  have hslot := Slot.of_upper hr hat
  have hg0 : Good pl roots (bumpEntry ptr held 0#64) := by
    rw [bumpEntry_none ptr_zero]; exact h
  have hlink : Linkable pl (upper va) 0#64 := .inl rfl
  have hbare : Bare ptr 512 (cell pl.phys) (3 - (upper va).length)
      (cell pl.phys pt (tableIndex va 1)) := fun _ _ => .inl rfl
  have hg1 := hg0.link hslot hbare hlink
  rw [hcell] at hg1
  have htook : Took pl roots held r va e (pl.store (pt * 4096 + tableIndex va 1 * 8) 0#64) := by
    refine ⟨hg1, ⟨fun g hd => ?_, fun _ => le_max_right ..⟩, fun s' hmem vb => ?_⟩
    · have ⟨hd1, hsame⟩ := hg0.keeps_link hslot hlink hd (.inl rfl)
      exact ⟨hd1, rfl, hsame⟩
    · rw [leaf_store h hslot _ hmem vb]
      simp
  -- the three tables on the way up, each reclaimed only if the one below it was
  have hread : pl.phys.readU64 (pt * 4096 + tableIndex va 1 * 8) = e := hcell
  unfold unmap
  simp only [hs, next_eq, h4, h3, h2, map_some, hread, hpres, Bool.not_true,
    Bool.false_eq_true, if_false]
  have hslot2 : tableAt ptr (cell pl.phys) r [tableIndex va 4, tableIndex va 3] = some pd := by
    simp [h4, h3]
  have hslot1 : tableAt ptr (cell pl.phys) r [tableIndex va 4] = some pdpt := by simp [h4]
  have ⟨hs2, hx2⟩ := Slot.above (q := [tableIndex va 4, tableIndex va 3]) hslot h hslot2
  have hat1 : tableAt ptr (cell (pl.store (pt * 4096 + tableIndex va 1 * 8) 0#64).phys) r
      [tableIndex va 4] = some pdpt := by
    rw [hslot.tableAt_store h _ (by simp [tableIndex_lt]) (by simp) (by simp [upper])]
    exact hslot1
  split
  · exact ⟨_, rfl, htook⟩
  rename_i hne1
  have htook2 := htook.up hs2 (by simp) hx2 (by simpa using hne1)
  have ⟨hs1, hx1⟩ := Slot.above (q := [tableIndex va 4]) hs2 htook.good hat1
  split
  · exact ⟨_, rfl, htook2⟩
  rename_i hne2
  have htook3 := htook2.up hs1 (by simp) hx1 (by simpa using hne2)
  -- freeing the table left the bytes as they were
  have hs1' : Slot (((pl.store (pt * 4096 + tableIndex va 1 * 8) 0#64).store
      (pd * 4096 + tableIndex va 2 * 8) 0#64).free (pt * 4096)).phys roots r
      [tableIndex va 4] pdpt (tableIndex va 3) := hs1
  have ⟨hs0, hx0⟩ := Slot.above (q := []) hs1' htook2.good rfl
  split
  · exact ⟨_, rfl, htook3⟩
  rename_i hne3
  exact ⟨_, rfl, htook3.up hs0 (by simp) hx0 (by simpa using hne3)⟩

lemma unmap_none (hs : s.pml4 = r * 4096)
    (hl : leaf pl.phys r va = none) : s.unmap va pl = (none, pl) := by
  unfold unmap
  simp only [hs, next_eq]
  cases h4 : ptr (cell pl.phys r (tableIndex va 4)) with
  | none => rfl
  | some pdpt =>
    simp only [map_some, next_eq]
    cases h3 : ptr (cell pl.phys pdpt (tableIndex va 3)) with
    | none => rfl
    | some pd =>
      simp only [map_some, next_eq]
      cases h2 : ptr (cell pl.phys pd (tableIndex va 2)) with
      | none => rfl
      | some pt =>
        have hread : pl.phys.readU64 (pt * 4096 + tableIndex va 1 * 8)
            = cell pl.phys pt (tableIndex va 1) := rfl
        have habsent : present (cell pl.phys pt (tableIndex va 1)) = false := by
          rw [← ptr_eq_none]
          rw [leaf, path, look_append_single] at hl
          simpa [upper, h4, h3, h2] using hl
        simp only [map_some, hread, habsent, Bool.not_false, if_true]

/-! ### When `map` fails

It fails only for want of a table, and a pool that had none to give has none after. -/

lemma alloc_eq_none_iff : pl.alloc = none ↔
    pl.fa.freeList = [] ∨ pl.fa.useReserve = false ∧ pl.fa.freeList.length ≤ pl.fa.reserve := by
  unfold Pool.alloc
  cases pl.fa.freeList with
  | nil => simp
  | cons f rest => cases pl.fa.useReserve <;> simp

lemma alloc_eq_none (h : pl'.fa = pl.fa) (ha : pl.alloc = none) : pl'.alloc = none := by
  rw [alloc_eq_none_iff] at ha ⊢
  rwa [h]

lemma nextOrAlloc_eq (pl : Pool) (table i : Nat) : nextOrAlloc table i pl
      = if present (entry pl.phys table i) then some (addr (entry pl.phys table i), pl)
        else pl.alloc.map fun res =>
          (res.1, res.2.store (table + i * 8) (make res.1 interior)) := by
  unfold nextOrAlloc
  dsimp only
  split
  · rfl
  · cases pl.alloc <;> rfl

lemma nextOrAlloc_none {table : Nat} (h : nextOrAlloc table i pl = none) : pl.alloc = none := by
  rw [nextOrAlloc_eq] at h
  split at h
  · simp at h
  · simpa using h

lemma nextOrAlloc_starved {table : Nat} (ha : pl.alloc = none)
    (h : nextOrAlloc table i pl = some (pa, pl')) : pl' = pl := by
  rw [nextOrAlloc_eq, ha] at h
  split at h
  · simp only [Option.some.injEq, Prod.mk.injEq] at h
    exact h.2.symm
  · simp at h

lemma nextOrAlloc_present (h : ptr (cell pl.phys t i) = some x) :
    nextOrAlloc (t * 4096) i pl = some (x * 4096, pl) := by
  have ⟨hpres, haddr⟩ := ptr_eq_some.mp h
  have hentry : entry pl.phys (t * 4096) i = cell pl.phys t i := rfl
  rw [nextOrAlloc_eq, hentry, if_pos hpres, haddr]

lemma map_outOfFrames {prot : Prot} {supervisor : Bool}
    (h : s.map va pa prot supervisor pl = (.error .outOfFrames, pl')) : pl'.alloc = none := by
  unfold AddrSpace.map at h
  split at h
  · simp at h
  split at h
  · simp at h
  split at h
  · simp at h
  split at h
  next h1 =>
    simp only [Prod.mk.injEq, true_and] at h
    subst h
    exact nextOrAlloc_none h1
  split at h
  next h2 =>
    simp only [Prod.mk.injEq, true_and] at h
    subst h
    exact nextOrAlloc_none h2
  split at h
  next h3 =>
    simp only [Prod.mk.injEq, true_and] at h
    subst h
    exact nextOrAlloc_none h3
  · simp at h

lemma map_starved (s : AddrSpace) (va pa : Nat) (prot : Prot) (supervisor : Bool)
    (ha : pl.alloc = none) : (s.map va pa prot supervisor pl).2.fa = pl.fa := by
  unfold AddrSpace.map
  split
  · rfl
  split
  · rfl
  split
  · rfl
  split
  · rfl
  rename_i h1
  obtain rfl := nextOrAlloc_starved ha h1
  split
  · rfl
  rename_i h2
  obtain rfl := nextOrAlloc_starved ha h2
  split
  · rfl
  rename_i h3
  obtain rfl := nextOrAlloc_starved ha h3
  rfl

lemma map_of_table {f : Nat} (hs : s.pml4 = r * 4096) (hr0 : r ≠ 0) (hva : va % 4096 = 0)
    (hat : tableAt ptr (cell pl.phys) r (upper va) = some t) (prot : Prot) (supervisor : Bool) :
    ∃ old pl', s.map va (f * 4096) prot supervisor pl = (.ok old, pl') ∧ pl'.fa = pl.fa := by
  have ⟨pdpt, pd, h4, h3, h2⟩ := chain hat
  unfold AddrSpace.map
  rw [if_neg (by rw [hs]; omega), if_neg (by omega), if_neg (by omega), hs, nextOrAlloc_present h4]
  dsimp only
  rw [nextOrAlloc_present h3]
  dsimp only
  rw [nextOrAlloc_present h2]
  exact ⟨_, _, rfl, rfl⟩

end NixVm
