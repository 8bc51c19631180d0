/-
The control block in a space.

`mapInto` maps seven pinned frames, and throws away what `map` gives back. That loses nothing as
long as the pages it replaces are pinned too, which they are unless somebody mapped a page of their
own there.
-/
import NixVm.Proofs.Access

namespace NixVm

open Finset Radix FrameAllocator Ctrl List

namespace Ctrl

/-- The leaf that `mapInto` installs. -/
def Mapping.leaf (c : Mapping) : BitVec 64 := Pte.make c.pa (leafFlags c.prot c.supervisor)

/-- The eight pages of the control block, the kernel stack included. -/
def vas : List Nat := kstackPageVa :: mappings.map Mapping.va

lemma mapping_facts : ∀ c ∈ mappings, c.va % 4096 = 0 ∧ c.pa % 4096 = 0 ∧ 0 < c.pa / 4096 ∧
    c.pa / 4096 < 8 ∧ upper c.va = upper kstackPageVa := by decide

lemma paths_nodup : (vas.map path).Nodup := by decide

lemma mapping_pa {c : Mapping} (hc : c ∈ mappings) : c.pa = c.pa / 4096 * 4096 := by
  have := (mapping_facts c hc).2.1
  omega

lemma ptr_mapping {c : Mapping} (hc : c ∈ mappings) : ptr c.leaf = some (c.pa / 4096) := by
  have hlt := (mapping_facts c hc).2.2.2.1
  have hptr := ptr_leaf (f := c.pa / 4096) (by omega) c.prot c.supervisor
  rwa [← mapping_pa hc] at hptr

end Ctrl

/-- Anywhere in the control block of the tree at `r`. -/
def AtCtrl (r : Nat) : Nat → Nat → Prop := fun s vb => s = r ∧ ∃ va ∈ Ctrl.vas, path vb = path va

lemma atCtrl_of_mapping {r : Nat} {c : Ctrl.Mapping} (hc : c ∈ mappings) (s vb : Nat)
    (h : At r c.va s vb) : AtCtrl r s vb :=
  ⟨h.1, c.va, by simp only [vas, List.mem_cons, List.mem_map]; exact .inr ⟨c, hc, rfl⟩, h.2⟩

/-- The shared pages of the control block, as far as they are there, are pinned frames. -/
def CtrlPinned (pl : Pool) (r : Nat) : Prop :=
  ∀ c ∈ Ctrl.mappings, ∀ e f, leaf pl.phys r c.va = some e → ptr e = some f →
    pl.fa.refcount f = pinned

def CtrlIntact (pl : Pool) (r : Nat) : Prop :=
  ∀ c ∈ Ctrl.mappings, ∃ e f, leaf pl.phys r c.va = some e ∧ ptr e = some f ∧
    pl.fa.refcount f = pinned

variable {pl : Pool} {image : Nat → Byte} {base vsize size : Nat}

lemma CtrlIntact.pins {r : Nat} (h : CtrlIntact pl r) : CtrlPinned pl r := by
  intro c hc e f hl he
  have ⟨e', f', hl', he', hp⟩ := h c hc
  rw [hl] at hl'
  obtain rfl : e = e' := by simpa using hl'
  rw [he] at he'
  obtain rfl : f = f' := by simpa using he'
  exact hp

section Install

variable {pl : Pool} {roots : Finset Nat} {held : Nat → Nat} {r : Nat} {s : AddrSpace}

variable {c : Ctrl.Mapping}

lemma mapCtrl_spec (hc : c ∈ mappings) (h : Good pl roots held) (hs : Rooted roots s r) :
    ∃ held', (∀ f, held f ≤ held' f) ∧
      Edit pl roots held' 0 (At r c.va) (s.map c.va c.pa c.prot c.supervisor pl).2 ∧
      (CtrlPinned pl r → held' = held ∧ CtrlPinned (s.map c.va c.pa c.prot c.supervisor pl).2 r) ∧
      ((s.map c.va c.pa c.prot c.supervisor pl).1.isOk = true →
        leaf (s.map c.va c.pa c.prot c.supervisor pl).2.phys r c.va = some c.leaf) := by
  obtain ⟨hva, -, hpos, hlt, -⟩ := mapping_facts c hc
  have hpin : pl.fa.refcount (c.pa / 4096) = pinned := h.low _ hlt
  have hbump := h.bump_pinned hpin (by omega)
  have hmap := map_edit hbump hs hva c.prot c.supervisor
  rw [← mapping_pa hc] at hmap
  cases hres : s.map c.va c.pa c.prot c.supervisor pl with
  | mk res pl' =>
    rw [hres] at hmap
    cases res with
    | error err =>
      have hgood := hmap.good.unbump_pinned (hmap.pin _ hpin) (by omega)
      have hedit : Edit pl roots held 0 Nowhere pl' := { hmap with good := hgood }
      refine ⟨held, fun _ => le_rfl, hedit.mono (fun _ => le_rfl)
        fun _ _ hn => hn.elim, fun hp => ⟨rfl, fun c' hc' e f hl he => ?_⟩,
        fun hok => by simp [Except.isOk, Except.toBool] at hok⟩
      rcases hs.mem with rfl | hr
      · rw [hgood.leaf_null] at hl
        simp at hl
      · rw [hedit.leaf_eq hr fun hn => hn] at hl
        exact hedit.pin f (hp c' hc' e f hl he)
    | ok old =>
      obtain ⟨hr, -, hedit, -, hleaf⟩ := hmap
      have hle : ∀ f, held f ≤ bumpLeaf held (leaf pl.phys r c.va) f := by
        intro f
        cases leaf pl.phys r c.va with
        | none => exact le_rfl
        | some e => exact Nat.le_add_right ..
      by_cases hp : CtrlPinned pl r
      · have hgood : Good pl' roots held := by
          refine hedit.good.congr_held fun f hf => ?_
          cases hl : leaf pl.phys r c.va with
          | none => rfl
          | some e =>
            rw [bumpLeaf, bumpEntry, if_neg, add_zero]
            intro he
            have hfp := hp c hc e f hl he
            rcases hf with hf | hf
            · exact hf (hedit.pin f hfp)
            · exact (h.used_of_leaf hr hl he).1 hf
        refine ⟨held, fun _ => le_rfl, { hedit with good := hgood },
          fun _ => ⟨rfl, fun c' hc' e f hl he => ?_⟩, fun _ => hleaf⟩
        by_cases hat : At r c.va r c'.va
        · rw [leaf, hat.2, ← leaf, hleaf, Option.some.injEq] at hl
          rw [← hl, ← Ctrl.Mapping.leaf, ptr_mapping hc, Option.some.injEq] at he
          exact hedit.pin f (he ▸ hpin)
        · rw [hedit.leaf_eq hr hat] at hl
          exact hedit.pin f (hp c' hc' e f hl he)
      · exact ⟨_, hle, hedit, fun hc => absurd hc hp, fun _ => hleaf⟩

lemma mapCtrls_spec (hs : Rooted roots s r) (cs : List Ctrl.Mapping) :
    ∀ {pl : Pool} {held : Nat → Nat}, (∀ c ∈ cs, c ∈ mappings) → Good pl roots held →
      ∃ held', (∀ f, held f ≤ held' f) ∧
        Edit pl roots held' 0 (fun t vb => t = r ∧ ∃ c ∈ cs, path vb = path c.va)
          (cs.foldl (fun pl c => (s.map c.va c.pa c.prot c.supervisor pl).2) pl) ∧
        (CtrlPinned pl r → held' = held ∧
          CtrlPinned (cs.foldl (fun pl c => (s.map c.va c.pa c.prot c.supervisor pl).2) pl) r) := by
  induction cs with
  | nil =>
    intro pl held _ h
    exact ⟨held, fun _ => le_rfl, Edit.refl h, fun hp => ⟨rfl, hp⟩⟩
  | cons c cs ih =>
    intro pl held hall h
    obtain ⟨held1, hle1, he1, hp1, -⟩ := mapCtrl_spec (hall c (by simp)) h hs
    have ⟨held2, hle2, he2, hp2⟩ := ih (fun c' hc' => hall c' (by simp [hc'])) he1.good
    refine ⟨held2, fun f => le_trans (hle1 f) (hle2 f),
      (he1.trans he2).mono (fun _ => by simp) ?_, fun hp => ?_⟩
    · rintro t vb (hat | ⟨ht, c', hc', hpath⟩)
      · exact ⟨hat.1, c, by simp, hat.2⟩
      · exact ⟨ht, c', by simp [hc'], hpath⟩
    · obtain ⟨rfl, hq⟩ := hp1 hp
      exact hp2 hq

/-- **`mapInto`** shows only in the control block, and loses a reference only of a page that was
not pinned. -/
lemma mapInto_spec (h : Good pl roots held) (hs : Rooted roots s r) :
    ∃ held', (∀ f, held f ≤ held' f) ∧ Edit pl roots held' 0 (AtCtrl r) (mapInto s pl) ∧
      (CtrlPinned pl r → held' = held ∧ CtrlPinned (mapInto s pl) r) := by
  have ⟨held', hle, he, hp⟩ := mapCtrls_spec hs mappings (fun _ hc => hc) h
  refine ⟨held', hle, he.mono (fun _ => le_rfl) ?_, hp⟩
  rintro t vb ⟨ht, c, hc, hpath⟩
  exact atCtrl_of_mapping hc t vb ⟨ht, hpath⟩

/-- The last-level table of the control block. -/
def ctrlTable (m : PhysMem) (r : Nat) : Option Nat :=
  tableAt ptr (cell m) r (upper Ctrl.kstackPageVa)

lemma ctrlTable_of_leaf {m : PhysMem} (hc : c ∈ mappings)
    {e : BitVec 64} (hl : leaf m r c.va = some e) : ctrlTable m r ≠ none := by
  obtain ⟨t, hat, -⟩ := leaf_eq_some.mp hl
  rw [(mapping_facts c hc).2.2.2.2] at hat
  rw [ctrlTable, hat]
  simp

lemma mapCtrls_cons (hr : r ∈ roots) (hs : Rooted roots s r)
    {cs : List Ctrl.Mapping} (hall : ∀ d ∈ c :: cs, d ∈ mappings)
    (hnd : ((c :: cs).map fun c => path c.va).Nodup) (h : Good pl roots held) {old : Option Nat}
    {pl1 : Pool} (heq : s.map c.va c.pa c.prot c.supervisor pl = (.ok old, pl1))
    (hrest : ∀ {held1}, Good pl1 roots held1 → ctrlTable pl1.phys r ≠ none → ∀ d ∈ cs,
      leaf (cs.foldl (fun pl c => (s.map c.va c.pa c.prot c.supervisor pl).2) pl1).phys r d.va
        = some d.leaf) : ∀ d ∈ c :: cs, leaf (cs.foldl
      (fun pl c => (s.map c.va c.pa c.prot c.supervisor pl).2) pl1).phys r d.va = some d.leaf := by
  have hc := hall c (by simp)
  obtain ⟨held1, -, he1, -, hdone⟩ := mapCtrl_spec hc h hs
  rw [heq] at he1 hdone
  have hleaf := hdone rfl
  intro d hd
  rcases mem_cons.mp hd with rfl | hd
  · obtain ⟨held2, -, he2, -⟩ := mapCtrls_spec hs cs (fun c hc => hall c (by simp [hc])) he1.good
    rw [he2.leaf_eq hr]
    · exact hleaf
    rintro ⟨-, c', hc', hpath⟩
    exact (nodup_cons.mp hnd).1 (mem_map.mpr ⟨c', hc', hpath.symm⟩)
  · exact hrest he1.good (ctrlTable_of_leaf hc hleaf) d hd

lemma mapCtrls_done (hr : r ∈ roots) (hs : Rooted roots s r) (cs : List Ctrl.Mapping) :
    ∀ {pl : Pool} {held : Nat → Nat}, (∀ c ∈ cs, c ∈ mappings) →
      (cs.map fun c => path c.va).Nodup → Good pl roots held → ctrlTable pl.phys r ≠ none →
      ∀ c ∈ cs, leaf (cs.foldl (fun pl c => (s.map c.va c.pa c.prot c.supervisor pl).2) pl).phys
        r c.va = some c.leaf := by
  induction cs with
  | nil => intro pl held _ _ _ _ c hc; simp at hc
  | cons c cs ih =>
    intro pl held hall hnd h htab
    obtain ⟨hva, -, -, -, hup⟩ := mapping_facts c (hall c (by simp))
    have hr0 : r ≠ 0 := (h.rc_of_table (f := r) ⟨r, hr, tab_self 3 r⟩).1
    have ⟨t, hat⟩ := Option.ne_none_iff_exists'.mp htab
    rw [ctrlTable, ← hup] at hat
    obtain ⟨old, pl1, heq, -⟩ := map_of_table (f := c.pa / 4096) hs.pml4 hr0 hva hat c.prot
      c.supervisor
    rw [← mapping_pa (hall c (by simp))] at heq
    rw [foldl_cons, heq]
    exact mapCtrls_cons hr hs hall hnd h heq fun hg htab1 =>
      ih (fun c hc => hall c (by simp [hc])) (nodup_cons.mp hnd).2 hg htab1

lemma mapCtrls_starved (s : AddrSpace) (cs : List Ctrl.Mapping) : ∀ {pl : Pool}, pl.alloc = none →
      (cs.foldl (fun pl c => (s.map c.va c.pa c.prot c.supervisor pl).2) pl).alloc = none := by
  induction cs with
  | nil => intro pl h; exact h
  | cons c cs ih =>
    intro pl h
    exact ih (alloc_eq_none (map_starved s c.va c.pa c.prot c.supervisor h) h)

/-- In a live space every page gets mapped, unless the pool has run dry. -/
lemma mapInto_done (h : Good pl roots held) (hr : r ∈ roots) (hs : Rooted roots s r)
    (hok : ctrlTable pl.phys r ≠ none ∨ (mapInto s pl).alloc ≠ none) :
    ∀ c ∈ mappings, leaf (mapInto s pl).phys r c.va = some c.leaf := by
  have hnd : (mappings.map fun c => path c.va).Nodup := by
    have := (List.nodup_cons.mp paths_nodup).2
    rwa [List.map_map] at this
  by_cases htab : ctrlTable pl.phys r ≠ none
  · exact mapCtrls_done hr hs mappings (fun _ hc => hc) hnd h htab
  have hok := hok.resolve_left htab
  obtain ⟨c0, cs, hcs⟩ : ∃ c0 cs, mappings = c0 :: cs := ⟨_, _, rfl⟩
  have hc0 : c0 ∈ mappings := by rw [hcs]; simp
  obtain ⟨hva, -, hpos, hlt, -⟩ := mapping_facts c0 hc0
  rw [hcs] at hnd
  rw [mapInto, hcs, List.foldl_cons] at hok ⊢
  cases hres : s.map c0.va c0.pa c0.prot c0.supervisor pl with
  | mk res pl1 =>
    rw [hres] at hok
    cases res with
    | error err =>
      -- the first page failed, so that there are no frames left
      refine absurd (mapCtrls_starved s cs ?_) hok
      have hspec := map_spec (h.bump_pinned (h.low _ hlt) (by omega)) hr hs.pml4 hva c0.prot
        c0.supervisor
      rw [← mapping_pa hc0, hres] at hspec
      rw [hspec.err_eq] at hres
      exact map_outOfFrames hres
    | ok old =>
      have hall : ∀ c ∈ c0 :: cs, c ∈ mappings := fun c hc => by rwa [hcs]
      exact mapCtrls_cons hr hs hall hnd h hres fun hg htab1 =>
        mapCtrls_done hr hs cs (fun c hc => hall c (by simp [hc]))
          (List.nodup_cons.mp hnd).2 hg htab1

lemma CtrlIntact.edit {pl' : Pool} {up : Nat → Nat} {A : Nat → Nat → Prop}
    (hp : CtrlIntact pl r) (hr : r ∈ roots) (he : Edit pl roots held up A pl')
    (hA : ∀ c ∈ mappings, ¬ A r c.va) : CtrlIntact pl' r := by
  intro c hc
  have ⟨e, f, hl, hf, hpin⟩ := hp c hc
  exact ⟨e, f, (he.leaf_eq hr (hA c hc)).trans hl, hf, he.pin f hpin⟩

lemma not_at_kstack (hc : c ∈ mappings) : ¬ At r kstackPageVa r c.va := by
  rintro ⟨-, hpath⟩
  have hnd := (List.nodup_cons.mp paths_nodup).1
  exact hnd (by rw [← hpath, List.map_map]; exact List.mem_map.mpr ⟨c, hc, rfl⟩)

/-- **`installKstack`** loses the new frame's reference only if `map` fails for want of the last
table. -/
lemma installKstack_spec (h : Good pl roots held) (hs : Rooted roots s r) :
    match installKstack s pl with
    | none => pl.alloc = none
    | some (_, pl') => ∃ held', (∀ f, held f ≤ held' f) ∧
        Edit pl roots held' 0 (At r kstackPageVa) pl' ∧
        (r ∈ roots → ctrlTable pl.phys r ≠ none → held' = held) := by
  unfold installKstack
  cases ha : pl.alloc with
  | none => rfl
  | some res =>
    obtain ⟨pa, pl1⟩ := res
    obtain ⟨f, rfl, hfresh, hg1⟩ := h.alloc ha
    have he1 := (hfresh.edit h hg1).mono (B := At r kstackPageVa) (fun _ => le_rfl)
      fun _ _ hn => hn.elim
    have hmap := map_edit hg1 hs (by decide : kstackPageVa % 4096 = 0) .rw true
    simp only [mapKstack]
    cases hres : s.map kstackPageVa (f * 4096) .rw true pl1 with
    | mk res pl2 =>
      rw [hres] at hmap
      cases res with
      | error err =>
        refine ⟨bump held f, fun _ => Nat.le_add_right .., he1.trans_same
          (hmap.mono (fun _ => le_rfl) fun _ _ hn => hn.elim), fun hr htab => ?_⟩
        obtain ⟨t, hat⟩ := Option.ne_none_iff_exists'.mp htab
        rw [ctrlTable, ← (hfresh.steady h).tableAt_eq hr (upper_lt _) (by simp [upper])]
          at hat
        have hr0 : r ≠ 0 := (h.rc_of_table (f := r) ⟨r, hr, tab_self 3 r⟩).1
        obtain ⟨old, pl3, heq, -⟩ := map_of_table (f := f) hs.pml4 hr0
          (by decide : kstackPageVa % 4096 = 0) hat .rw true
        rw [hres] at heq
        simp at heq
      | ok old =>
        obtain ⟨hr, hold, he2, -, -⟩ := hmap
        subst hold
        have hall := he1.trans_same he2
        cases hl : leaf pl1.phys r kstackPageVa with
        | none =>
          rw [hl] at hall
          exact ⟨held, fun _ => le_rfl, hall, fun _ _ => rfl⟩
        | some e =>
          obtain ⟨g, hg⟩ := leaf_present hl
          rw [hl] at hall
          exact ⟨held, fun _ => le_rfl, hall.releaseLeaf hg, fun _ _ => rfl⟩

end Install

namespace Ctrl

variable {x : Nat}

lemma writeWords_below (pa : Nat) (ws : List (BitVec 64)) (m : PhysMem)
    (hx : x < pa) : (writeWords m pa ws).byte x = m.byte x := by
  unfold writeWords
  generalize ws.zipIdx = zs
  induction zs generalizing m with
  | nil => rfl
  | cons z zs ih =>
    rw [foldl_cons, ih]
    exact Bytes.writeWord_of_disjoint _ _ (by omega)

lemma write_below (m : PhysMem) (pa : Nat) (bs : List Byte) (hx : x < pa) :
    (m.write pa bs).byte x = m.byte x := by
  change Bytes.store m.byte pa bs.length (fun i => bs.getD i 0) x = _
  exact Bytes.store_of_disjoint _ _ (by omega)

lemma build_null (image : Nat → Byte) (m : PhysMem) (hx : x < 4096) :
    (build image m).byte x = m.byte x := by
  refine (Bytes.store_of_disjoint _ _ (by simp [framePa, ctrlPhysBase, vdsoFidx]; omega)).trans ?_
  rw [write_below _ _ _ (by simp [framePa, ctrlPhysBase]; omega),
    write_below _ _ _ (by simp [framePa, ctrlPhysBase]; omega),
    writeWords_below _ _ _ (by simp [framePa, ctrlPhysBase]; omega),
    write_below _ _ _ (by simp [framePa, ctrlPhysBase]; omega),
    writeWords_below _ _ _ (by simp [framePa, ctrlPhysBase]; omega),
    writeWords_below _ _ _ (by simp [framePa, ctrlPhysBase]; omega)]

lemma pin_free (fs : List Nat) : ∀ {fa : FrameAllocator}, (∀ f ∈ fs, fa.refcount f = 0 ∨
    fa.refcount f = pinned) → (fs.foldl pin fa)
      = { fa with refcount := fun f => if f ∈ fs then pinned else fa.refcount f } := by
  induction fs with
  | nil => intro fa _; simp
  | cons f fs ih =>
    intro fa hfree
    have hone : fa.pin f = fa.setRefcount f pinned := by
      rw [pin, if_neg]
      rcases hfree f (by simp) with h0 | hp
      · omega
      · exact fun hc => hc.1 hp
    rw [List.foldl_cons, hone, ih]
    · simp only [setRefcount, List.mem_cons]
      congr 1
      funext g
      by_cases hgf : g = f <;> simp [hgf]
    intro g hg
    simp only [setRefcount]
    split
    · exact .inr rfl
    · exact hfree g (by simp [hg])

lemma reserve_new {n : Nat} {fa : FrameAllocator}
    (h : ((new n).setReserve 64).reserveRange ctrlPhysBase ctrlSize = some fa) :
    (∀ f, fa.refcount f = if f < 8 then pinned else 0) ∧ fa.allocated = 0 ∧ fa.nframes = n ∧
      fa.freeList = (List.range' 1 (n % 2 ^ 32 - 1)).filter (fun f => fa.refcount f ≠ pinned) ∧
      fa.reserve = 64 ∧ fa.useReserve = false := by
  unfold reserveRange at h
  rw [if_neg (by decide)] at h
  dsimp only at h
  have hrange : List.range' (ctrlPhysBase / 4096)
      ((ctrlPhysBase + ctrlSize + 4095) / 4096 - ctrlPhysBase / 4096) = [1, 2, 3, 4, 5, 6, 7] := by
    decide
  rw [hrange, pin_free] at h
  · split at h
    · simp only [Option.some.injEq] at h
      subst h
      refine ⟨fun f => ?_, rfl, rfl, rfl, rfl, rfl⟩
      simp only [setReserve, new, List.mem_cons, List.not_mem_nil, or_false]
      by_cases hf : f < 8
      · rw [if_pos hf]
        split
        · rfl
        · rw [if_pos (by omega)]
      · rw [if_neg hf, if_neg (by omega), if_neg (by omega)]
    · simp at h
  · intro f _
    simp only [setReserve, new]
    split <;> simp

/-- A new pool is in order, as long as the free list can hold a frame at all. -/
lemma good_new {image : Nat → Byte} {size : Nat} {pl : Pool}
    (h : reserveAndBuild image ⟨(new (PhysMem.new size).nframes).setReserve 64,
      PhysMem.new size⟩ = some pl) (hb : 8 ≤ pl.fa.bound) : Good pl ∅ fun _ => 0 := by
  unfold reserveAndBuild at h
  split at h
  · simp at h
  rename_i fa hfa
  obtain ⟨hrc, halloc, hn, hlist, -, -⟩ := reserve_new hfa
  simp only [Option.some.injEq] at h
  subst h
  have hzero : ∀ f, fa.refcount f = 0 ↔ 8 ≤ f := by
    intro f
    rw [hrc]
    split <;> simp [pinned] <;> omega
  refine ⟨⟨fun f hf => ?_, fun r hr => by simp at hr⟩, ?_, fun f => ?_, fun f hf => ?_,
    fun f hf => ?_, fun f => ?_, ?_, fun i hi => ?_⟩
  · have h0 : rcOf ⟨fa, build image (PhysMem.new size)⟩ f = 0 := by
      unfold rcOf
      split
      · rfl
      rename_i hne
      refine (hzero f).mpr ?_
      by_contra hlt
      exact hf ⟨hne, (hrc f).trans (if_pos (by omega))⟩
    rw [h0]
    simp [refs]
  · rw [hlist]
    exact (nodup_range' (h := by omega)).filter _
  · change f ∈ fa.freeList ↔ f < fa.bound ∧ fa.refcount f = 0
    rw [hlist, mem_filter, mem_range'_1, hzero, bound, hn]
    simp only [hrc, ne_eq, decide_not, Bool.not_eq_eq_eq_not, Bool.not_true,
      decide_eq_false_iff_not]
    split
    · simp; omega
    · simp [pinned]; omega
  · change f < fa.bound
    have : ¬ 8 ≤ f := fun hc => hf ((hzero f).mpr hc)
    change 8 ≤ fa.bound at hb
    omega
  · exact (hrc f).trans (if_pos hf)
  · change fa.refcount f ≤ pinned
    rw [hrc]
    split <;> simp
  · change fa.allocated = _
    rw [halloc, eq_comm, card_eq_zero, filter_eq_empty_iff]
    intro f _ hf
    exact hf.2 ((hzero f).mpr hf.1)
  · refine Bytes.readWord_eq_zero fun k hk => ?_
    have hnull := build_null image (PhysMem.new size) (x := 0 * 4096 + i * 8 + k) (by omega)
    exact hnull

end Ctrl

/-- What `newSplit` returns: an empty space at `x`, with the control block in it. -/
structure Booted (image : Nat → Byte) (base vsize : Nat) (g : GuestMemory) (pl : Pool) (x : Nat) :
    Prop where
  space : ∃ k, g = GuestMemory.empty base (u64 (nextMultipleOf (max vsize 4096) 16384))
    ⟨x * 4096⟩ k
  base : base % 4096 = 0
  ne_zero : x ≠ 0
  good : Good pl {x} fun _ => 0
  ctrl : ∀ c ∈ Ctrl.mappings, leaf pl.phys x c.va = some c.leaf
  only : ∀ va, (∀ vb ∈ Ctrl.vas, path va ≠ path vb) → leaf pl.phys x va = none
  low : ∃ size, ∀ f, f < 8 → Same (Ctrl.build image (PhysMem.new size)) pl.phys f
  rc : ∀ f, 8 ≤ f → pl.fa.refcount f ≤ 1

lemma Booted.intact {x : Nat} {g : GuestMemory}
    (h : Booted image base vsize g pl x) : CtrlIntact pl x := by
  intro c hc
  refine ⟨c.leaf, c.pa / 4096, h.ctrl c hc, ptr_mapping hc, h.good.low _ ?_⟩
  exact (mapping_facts c hc).2.2.2.1

lemma alloc_none_of_bound
    (h : reserveAndBuild image ⟨(new (PhysMem.new size).nframes).setReserve 64,
      PhysMem.new size⟩ = some pl) (hb : pl.fa.bound < 8) : pl.alloc = none := by
  unfold reserveAndBuild at h
  split at h
  · simp at h
  rename_i fa hfa
  obtain ⟨hrc, -, hn, hlist, -, -⟩ := reserve_new hfa
  simp only [Option.some.injEq] at h
  subst h
  refine alloc_eq_none_iff.mpr (.inl ?_)
  change fa.nframes % 2 ^ 32 < 8 at hb
  rw [hlist, filter_eq_nil_iff]
  intro f hf
  rw [mem_range'_1] at hf
  simp [hrc, show f < 8 by omega]

lemma reserveAndBuild_eq (h : reserveAndBuild image ⟨(new (PhysMem.new size).nframes).setReserve 64,
      PhysMem.new size⟩ = some pl) :
    pl.phys = build image (PhysMem.new size) ∧ ∀ f, 8 ≤ f → pl.fa.refcount f = 0 := by
  unfold reserveAndBuild at h
  split at h
  · simp at h
  rename_i fa hfa
  simp only [Option.some.injEq] at h
  subst h
  exact ⟨rfl, fun f hf => ((reserve_new hfa).1 f).trans (if_neg (by omega))⟩

lemma booted_of_steps {k : Nat} {pl0 pl1 pl2 : Pool} {space : AddrSpace} (hbase : base % 4096 = 0)
    (hpl0 : reserveAndBuild image
      ⟨(new (PhysMem.new size).nframes).setReserve 64, PhysMem.new size⟩ = some pl0)
    (hnew : AddrSpace.new pl0 = some (space, pl1))
    (hk : installKstack space (mapInto space pl1) = some (k, pl2)) : ∃ x, Booted image base vsize
      (GuestMemory.empty base (u64 (nextMultipleOf (max vsize 4096) 16384)) space k) pl2 x := by
  unfold AddrSpace.new at hnew
  split at hnew
  · simp at hnew
  rename_i pml4 pl1' ha
  simp only [Option.some.injEq, Prod.mk.injEq] at hnew
  obtain ⟨rfl, rfl⟩ := hnew
  have hb : 8 ≤ pl0.fa.bound := by
    by_contra hlt
    rw [alloc_none_of_bound hpl0 (by omega)] at ha
    simp at ha
  have hg0 := good_new hpl0 hb
  obtain ⟨x, rfl, hp⟩ := hg0.plant ha
  have hx : x ∈ insert x (∅ : Finset Nat) := by simp
  have hroot : Rooted (insert x ∅) ⟨x * 4096⟩ x := ⟨rfl, .inr hx⟩
  have hpin : CtrlPinned pl1' x := by
    intro c _ e f hl _
    rw [leaf, hp.look_new (full_path _)] at hl
    simp at hl
  obtain ⟨held1, -, he1, hkeep⟩ := mapInto_spec hp.good hroot
  obtain ⟨rfl, hpin1⟩ := hkeep hpin
  have hinst := installKstack_spec he1.good hroot
  rw [hk] at hinst
  obtain ⟨held2, -, he2, hkeep2⟩ := hinst
  have hleaf := mapInto_done hp.good hx hroot (.inr fun hn => by
    unfold installKstack at hk
    rw [hn] at hk
    simp at hk)
  obtain ⟨c, hc⟩ : ∃ c, c ∈ mappings := ⟨_, mem_cons_self⟩
  obtain rfl := hkeep2 hx (ctrlTable_of_leaf hc (hleaf c hc))
  have hsingle : insert x (∅ : Finset Nat) = {x} := insert_empty_eq x
  refine ⟨x, ⟨k, rfl⟩, hbase, hp.ne_zero, by rw [← hsingle]; exact he2.good,
    fun c hc => ?_, fun va hva => ?_, ⟨size, fun f hf => ?_⟩, fun f hf => ?_⟩
  · rw [he2.leaf_eq hx (not_at_kstack hc)]
    exact hleaf c hc
  · rw [he2.leaf_eq hx fun hat => hva _ (by simp [vas]) hat.2, he1.leaf_eq hx fun hat => ?_]
    · exact hp.look_new (full_path va)
    obtain ⟨-, vb, hvb, hpath⟩ := hat
    exact hva vb hvb hpath
  · rw [← (reserveAndBuild_eq hpl0).1]
    exact (((hp.keeps.data f (hg0.pinned_data (hg0.low f hf))).2.2).trans
      (he1.low f hf)).trans (he2.low f hf)
  have h0 := (reserveAndBuild_eq hpl0).2 f hf
  have h1 := hp.keeps.le f
  have h2 := he1.le f
  have h3 := he2.le f
  simp only [Pi.zero_apply] at h2 h3
  omega

/-- **`newSplit`.** -/
lemma newSplit_spec {ceiling : Nat} {physBytes : Nat} {g : GuestMemory}
    (h : GuestMemory.newSplit ceiling image base vsize physBytes = some (g, pl)) :
    ∃ x, Booted image base vsize g pl x := by
  unfold GuestMemory.newSplit at h
  split at h
  · simp at h
  dsimp only at h
  split at h
  · simp at h
  rename_i pl0 hpl0
  split at h
  · simp at h
  rename_i space pl1 hnew
  split at h
  · simp at h
  rename_i k pl2 hk
  simp only [Option.some.injEq, Prod.mk.injEq] at h
  obtain ⟨rfl, rfl⟩ := h
  exact booted_of_steps (by omega) hpl0 hnew hk

end NixVm
