/-
Every frame is accounted for.

As long as no extent covers the control block and only live spaces are forked, no reference is ever
lost: the refcount of a frame is the number of leaves for it in the trees of the spaces, one more
if it is a table of theirs, and the times it was handed out.
-/
import NixVm.Proofs.Books

namespace NixVm

open Finset Radix

/-- No page of the extent is in the control block. -/
def GuestMemory.Clear (g : GuestMemory) : Prop :=
  ∀ p < g.npages, ∀ va ∈ Ctrl.vas, path (g.pageBase p) ≠ path va

lemma GuestMemory.Clear.of_extent {g g' : GuestMemory} (h : g.Clear) (hbase : g'.base = g.base)
    (hsize : g'.size = g.size) : g'.Clear := by
  intro p hp va hva
  unfold GuestMemory.npages at hp
  unfold GuestMemory.pageBase
  rw [hsize] at hp
  rw [hbase]
  exact h p hp va hva

lemma mem_vas {c : Ctrl.Mapping} (hc : c ∈ Ctrl.mappings) : c.va ∈ Ctrl.vas :=
  List.mem_cons_of_mem _ (List.mem_map_of_mem hc)

lemma GuestMemory.Clear.not_atExtent {g : GuestMemory} (h : g.Clear) (r x : Nat)
    {c : Ctrl.Mapping} (hc : c ∈ Ctrl.mappings) : ¬AtExtent g r x c.va := by
  rintro ⟨-, p, hp, hpath⟩
  exact h p hp c.va (mem_vas hc) hpath.symm

/-! ### Trees with their control block -/

/-- The books are right, and every tree has its control block. -/
structure Furnished (roots : Finset Nat) (held : Nat → Nat) (pl : Pool) : Prop where
  good : Good pl roots held
  ctrl : ∀ y ∈ roots, CtrlIntact pl y

section Furnish

variable {roots : Finset Nat} {held : Nat → Nat} {pl pl' : Pool} {r x : Nat} {s : AddrSpace}
  {g : GuestMemory}

lemma Furnished.calm {A : Nat → Nat → Prop} (h : Furnished roots held pl)
    {held' : Nat → Nat} (hgood : Good pl' roots held') (hc : Calm roots A pl pl')
    (hA : ∀ y, ∀ c ∈ Ctrl.mappings, ¬A y c.va) : Furnished roots held' pl' :=
  ⟨hgood, fun y hy => (h.ctrl y hy).calm hy hc (hA y)⟩

lemma Furnished.setUseReserve (h : Furnished roots held pl) (on : Bool) :
    Furnished roots held (pl.setUseReserve on) := ⟨h.good.setUseReserve on, h.ctrl⟩

lemma Furnished.page (h : Furnished roots held pl) (hg : g.Clear) {p : Nat}
    (hp : p < g.npages) {up : Nat → Nat} (he : Edit pl roots held up (At r (g.pageBase p)) pl') :
    Furnished roots held pl' :=
  h.calm he.good (he.moves.calm (atExtent_of_page hp)) fun y _ hc => hg.not_atExtent r y hc

lemma CtrlIntact.of_leaves (h : Good pl roots held)
    (hl : ∀ c ∈ Ctrl.mappings, leaf pl.phys r c.va = some c.leaf) : CtrlIntact pl r :=
  fun c hc => ⟨c.leaf, c.pa / 4096, hl c hc, Ctrl.ptr_mapping hc,
    h.low _ (Ctrl.mapping_facts c hc).2.2.2.1⟩

lemma CtrlIntact.table (h : CtrlIntact pl r) : ctrlTable pl.phys r ≠ none := by
  obtain ⟨c, cs, hcs⟩ : ∃ c cs, Ctrl.mappings = c :: cs := ⟨_, _, rfl⟩
  have hc : c ∈ Ctrl.mappings := by
    rw [hcs]
    exact List.mem_cons_self
  obtain ⟨e, -, hl, -⟩ := h c hc
  exact ctrlTable_of_leaf hc hl

lemma Furnished.mapInto (h : Good pl roots held) (hr : r ∈ roots) (hs : Rooted roots s r)
    (hothers : ∀ y ∈ roots, y ≠ r → CtrlIntact pl y) (hpins : CtrlPinned pl r)
    (hok : ctrlTable pl.phys r ≠ none ∨ (Ctrl.mapInto s pl).alloc ≠ none) :
    Furnished roots held (Ctrl.mapInto s pl) := by
  obtain ⟨held', -, hedit, hpin⟩ := mapInto_spec h hs
  obtain ⟨rfl, -⟩ := hpin hpins
  refine ⟨hedit.good, fun y hy => ?_⟩
  by_cases hyr : y = r
  · subst hyr
    exact .of_leaves hedit.good (mapInto_done h hr hs hok)
  · exact (hothers y hy hyr).edit hy hedit fun c _ hat => hyr hat.1

lemma Furnished.kstack (h : Furnished roots held pl) (hr : r ∈ roots)
    (hs : Rooted roots s r) {k : Nat} (hk : installKstack s pl = some (k, pl')) :
    Furnished roots held pl' := by
  have hspec := installKstack_spec h.good hs
  rw [hk] at hspec
  obtain ⟨held', -, hedit, hsame⟩ := hspec
  obtain rfl := hsame hr (h.ctrl r hr).table
  refine ⟨hedit.good, fun y hy => (h.ctrl y hy).edit hy hedit fun c hc hat => ?_⟩
  have hyr := hat.1
  subst hyr
  exact not_at_kstack hc hat

lemma Furnished.foldl {f : Pool → Nat → Pool} (ps : List Nat)
    (hf : ∀ pl, ∀ p ∈ ps, Furnished roots held pl → Furnished roots held (f pl p)) :
    ∀ pl, Furnished roots held pl → Furnished roots held (ps.foldl f pl) := by
  induction ps with
  | nil => exact fun pl h => h
  | cons p ps ih =>
    intro pl h
    exact ih (fun pl q hq => hf pl q (List.mem_cons_of_mem _ hq)) _ (hf pl p List.mem_cons_self h)

section

variable (h : Furnished roots held pl)
include h

lemma Furnished.reshare (hg : g.Clear) (hr : Rooted roots g.space r) (hs : Rooted roots s x) :
    Furnished roots held (g.reshare s pl) := by
  refine Furnished.foldl _ (fun pl p hp h => ?_) pl h
  have hlt := List.mem_range.mp (List.mem_filter.mp hp).1
  split
  · have hone := h.page hg hlt (protect_edit h.good hr (g.pageBase p) (g.prot p) false).2.1
    exact hone.page hg hlt (protect_edit hone.good hs (g.pageBase p) (g.prot p) false).2.1
  · exact h

lemma Furnished.dropPolicy (hg : g.Clear)
    (hs : Rooted roots s x) : Furnished roots held (g.dropPolicy s pl) := by
  refine Furnished.foldl _ (fun pl p hp h => ?_) pl h
  exact h.page hg (List.mem_range.mp (List.mem_filter.mp hp).1) (dropLeaf_spec h.good hs _).2.1

lemma Furnished.forked (hr : r ∈ roots)
    (hf : Forked pl roots held r x pl') : Furnished (insert x roots) held pl' := by
  have hpin : ∀ f, pl.fa.refcount f = pinned → pl'.fa.refcount f = pinned := by
    intro f hfp
    have hup := (hf.up f (by rw [hfp]; decide)).1
    have hle := hf.good.le f
    omega
  have hcopy : ∀ y, (∀ va, leaf pl'.phys y va = (leaf pl.phys r va).map Pte.readOnly) →
      CtrlIntact pl' y := by
    intro y hy c hc
    obtain ⟨e, f, hl, hptr, hp⟩ := h.ctrl r hr c hc
    exact ⟨Pte.readOnly e, f, by rw [hy, hl, Option.map_some], by rw [ptr_readOnly, hptr], hpin f hp⟩
  refine ⟨hf.good, fun y hy => ?_⟩
  rcases mem_insert.mp hy with rfl | hy
  · exact hcopy y hf.child
  by_cases hyr : y = r
  · subst hyr
    exact hcopy y hf.parent
  intro c hc
  obtain ⟨e, f, hl, hptr, hp⟩ := h.ctrl y hy c hc
  exact ⟨e, f, (hf.others y hy hyr c.va).trans hl, hptr, hpin f hp⟩

/-- **`try_fork`** of a live space. -/
lemma Furnished.tryFork {g' : GuestMemory} {child : Option GuestMemory} (hg : g.Clear)
    (hr : r ∈ roots) (hs : g.space.pml4 = r * 4096)
    (hf : g.tryFork pl = some (child, g', pl')) :
    SameSpace g g' ∧ (child = none ∧ Furnished roots held pl' ∨
      ∃ c x, child = some c ∧ x ∉ roots ∧ x ≠ 0 ∧ c.base = g.base ∧ c.size = g.size ∧
        c.space.pml4 = x * 4096 ∧ Furnished (insert x roots) held pl') := by
  have hspec := forkCow_spec h.good (.inr hr) hs
  unfold GuestMemory.tryFork at hf
  cases hres : g.space.forkCow pl with
  | mk res pl1 =>
    rw [hres] at hspec
    simp only [hres] at hf
    cases res with
    | none =>
      cases hf
      refine ⟨.refl g, .inl ⟨rfl, hspec.good, fun y hy c hc => ?_⟩⟩
      obtain ⟨e, f, hl, hptr, hp⟩ := h.ctrl y hy c hc
      refine ⟨e, f, (hspec.steady.quiet y hy c.va).trans hl, hptr, ?_⟩
      rcases hspec.rc f with heq | heq
      · rw [heq, hp]
      · exact heq.1
    | some c =>
      obtain ⟨x, rfl, hforked⟩ := hspec
      dsimp only at hf
      have hxmem := mem_insert_self x roots
      have hrmem : r ∈ insert x roots := mem_insert_of_mem hr
      have hnew : Rooted (insert x roots) ⟨x * 4096⟩ x := ⟨rfl, .inr hxmem⟩
      have hold : Rooted (insert x roots) g.space r := ⟨hs, .inr hrmem⟩
      have h0 := (h.forked hr hforked).setUseReserve true
      have h1 := Furnished.mapInto h0.good hrmem hold (fun y hy _ => h0.ctrl y hy)
        (h0.ctrl r hrmem).pins (.inl (h0.ctrl r hrmem).table)
      have h2 := Furnished.mapInto h1.good hxmem hnew (fun y hy _ => h1.ctrl y hy)
        (h1.ctrl x hxmem).pins (.inl (h1.ctrl x hxmem).table)
      split at hf
      · cases hf
      rename_i hk1
      have h3 := h2.kstack hrmem hold hk1
      split at hf
      · cases hf
      rename_i hk2
      have h4 := (h3.kstack hxmem hnew hk2).setUseReserve false
      cases hf
      refine ⟨⟨rfl, rfl, rfl⟩, .inr ⟨_, x, rfl, hforked.new, hforked.ne_zero, rfl, rfl, rfl, ?_⟩⟩
      exact (h4.reshare hg hold hnew).dropPolicy hg hnew

/-- **`destroy`.** -/
lemma Furnished.destroy (hs : Rooted roots s r) :
    Furnished (roots.erase r) held (s.destroy pl) := by
  by_cases hr : r ∈ roots
  · have hfreed := destroy_spec h.good hr hs.pml4
    refine ⟨hfreed.good, fun y hy c hc => ?_⟩
    obtain ⟨e, f, hl, hptr, hp⟩ := h.ctrl y (mem_of_mem_erase hy) c hc
    exact ⟨e, f, by rw [hfreed.phys_eq, hl], hptr, (hfreed.pin f).mpr hp⟩
  have hzero : s.pml4 = 0 := by
    rw [hs.pml4, hs.mem.resolve_right hr, Nat.zero_mul]
  rw [erase_eq_of_notMem hr, AddrSpace.destroy, if_pos hzero]
  exact h

omit h in
lemma alloc_of_kstack {k : Nat} (hk : installKstack s pl = some (k, pl')) : pl.alloc ≠ none := by
  intro ha
  simp only [installKstack, ha] at hk
  cases hk

/-- **`exec_reset`.** -/
lemma Furnished.execReset {o : GuestMemory × Pool}
    (hs : Rooted roots g.space r) (ho : g.execReset pl = some o) :
    ∃ x, x ∉ roots ∧ x ≠ 0 ∧ o.1.base = g.base ∧ o.1.size = g.size ∧
      o.1.space.pml4 = x * 4096 ∧ Furnished ((insert x roots).erase r) held o.2 := by
  unfold GuestMemory.execReset AddrSpace.new at ho
  cases ha : (pl.setUseReserve true).alloc with
  | none =>
    simp only [ha] at ho
    cases ho
  | some res =>
    obtain ⟨pa, pl1⟩ := res
    obtain ⟨x, rfl, hp⟩ := (h.good.setUseReserve true).plant ha
    simp only [ha] at ho
    have hxmem := mem_insert_self x roots
    have hnew : Rooted (insert x roots) ⟨x * 4096⟩ x := ⟨rfl, .inr hxmem⟩
    have hothers : ∀ y ∈ insert x roots, y ≠ x → CtrlIntact pl1 y := by
      intro y hy hyx c hc
      have hy := (mem_insert.mp hy).resolve_left hyx
      obtain ⟨e, f, hl, hptr, hpin⟩ := h.ctrl y hy c hc
      refine ⟨e, f, (hp.steady.quiet y hy c.va).trans hl, hptr, ?_⟩
      have hused : (pl.setUseReserve true).fa.refcount f ≠ 0 := by
        show pl.fa.refcount f ≠ 0
        rw [hpin]
        decide
      rw [hp.fresh.rc_other (hp.fresh.ne_of_used hused)]
      exact hpin
    have hpins : CtrlPinned pl1 x := by
      intro c hc e f hl
      rw [leaf, hp.look_new (full_path c.va)] at hl
      cases hl
    split at ho
    · cases ho
    rename_i k pl2 hk
    have h1 := Furnished.mapInto hp.good hxmem hnew hothers hpins (.inr (alloc_of_kstack hk))
    have h2 := h1.kstack hxmem hnew hk
    cases ho
    refine ⟨x, hp.new, hp.ne_zero, rfl, rfl, rfl, Furnished.setUseReserve ?_ false⟩
    exact h2.destroy (hs.mono mem_insert_of_mem)

end

end Furnish

/-! ### Runs -/

namespace Sys

/-- Frames are used lawfully, and only live spaces fork. -/
def Neat (s : Sys) (op : Op) : Prop :=
  s.Lawful op ∧ ∀ i g, op = .tryFork i → s.spaces[i]? = some g → g.space.pml4 ≠ 0

/-- The books are right with nothing lost, for the spaces' trees with their control blocks. -/
structure Exact (s : Sys) (roots : Finset Nat) : Prop extends Sane s roots 0 where
  live : ∀ x ∈ roots, ∃ (i : Nat) (g : GuestMemory), s.spaces[i]? = some g ∧ g.space.pml4 = x * 4096
  ctrl : ∀ x ∈ roots, CtrlIntact s.pool x
  clear : ∀ (i : Nat) g, s.spaces[i]? = some g → g.Clear

variable {s s' : Sys} {roots : Finset Nat} {i : Nat} {g : GuestMemory} {b : Bool}

lemma Exact.furnished (h : Exact s roots) : Furnished roots (bumps 0 s.held) s.pool :=
  ⟨h.good, h.ctrl⟩

lemma getElem?_put_self (hi : s.spaces[i]? = some g) (g' : GuestMemory) (pl : Pool) :
    (s.put i g' pl).spaces[i]? = some g' := by
  show (s.spaces.set i g')[i]? = some g'
  rw [List.getElem?_set, if_pos rfl, if_pos (List.getElem?_eq_some_iff.mp hi).1]

lemma getElem?_put_ne {j : Nat} (hj : j ≠ i) (g' : GuestMemory) (pl : Pool) :
    (s.put i g' pl).spaces[j]? = s.spaces[j]? := by
  show (s.spaces.set i g')[j]? = s.spaces[j]?
  rw [List.getElem?_set, if_neg fun hij => hj hij.symm]

section

variable (h : Exact s roots)
include h

lemma Exact.stay (hi : s.spaces[i]? = some g) {g' : GuestMemory}
    {pl' : Pool} (hsame : SameSpace g g') (hf : Furnished roots (bumps 0 s.held) pl') :
    Exact (s.put i g' pl') roots := by
  refine ⟨h.toSane.stay hi hsame hf.good, fun x hx => ?_, hf.ctrl, fun j g1 hj => ?_⟩
  · obtain ⟨j, g1, hj, hpml⟩ := h.live x hx
    by_cases hji : j = i
    · subst hji
      rw [hi] at hj
      cases hj
      exact ⟨j, g', getElem?_put_self hi g' pl', by rw [hsame.space, hpml]⟩
    · exact ⟨j, g1, (getElem?_put_ne hji g' pl').trans hj, hpml⟩
  · exact forall_put h.clear ((h.clear i g hi).of_extent hsame.base hsame.size) j g1 hj

lemma Exact.call {c : Call} (hop : s.Lawful (.call i c))
    (hs : s.step (.call i c) = some (b, s')) : Exact s' roots := by
  simp only [Sys.step] at hs
  split at hs
  · cases hs
  rename_i g hi
  obtain ⟨d, hd, heq⟩ := Option.map_eq_some_iff.mp hs
  cases heq
  obtain ⟨r, hr⟩ := h.rooted i g hi
  have hkept := call_kept h.good hr (h.base i g hi).1 (h.base i g hi).2
    (fun addr frames prot hc q hq => by
      subst hc
      exact h.toSane.lasting hi hr hop hq) hd
  refine h.stay hi hkept.same (h.furnished.calm hkept.good hkept.calm fun y _ hc => ?_)
  exact (h.clear i g hi).not_atExtent r y hc

lemma Exact.tryFork (hop : ∀ g, s.spaces[i]? = some g → g.space.pml4 ≠ 0)
    (hs : s.step (.tryFork i) = some (b, s')) : ∃ roots', Exact s' roots' := by
  simp only [Sys.step] at hs
  split at hs
  · cases hs
  rename_i g hi
  obtain ⟨r, hr⟩ := h.rooted i g hi
  have hmem : r ∈ roots := by
    refine hr.mem.resolve_left fun h0 => hop g hi ?_
    rw [hr.pml4, h0, Nat.zero_mul]
  split at hs
  · cases hs
  next g' pl' hfork =>
    cases hs
    obtain ⟨hsame, ⟨-, hf⟩ | ⟨c, x, hc, -⟩⟩ :=
      h.furnished.tryFork (h.clear i g hi) hmem hr.pml4 hfork
    · exact ⟨roots, h.stay hi hsame hf⟩
    · cases hc
  rename_i child g' pl' hfork
  cases hs
  obtain ⟨hsame, ⟨hc, -⟩ | ⟨c, x, hc, hnew, h0, hbase, hsize, hpml, hf⟩⟩ :=
    h.furnished.tryFork (h.clear i g hi) hmem hr.pml4 hfork
  · cases hc
  cases hc
  have hstay := (h.toSane.mono hf.good (subset_insert x roots)).stay hi hsame hf.good
  have hxnew : ∀ (j : Nat) g1, (s.put i g' pl').spaces[j]? = some g1 →
      g1.space.pml4 ≠ child.space.pml4 := by
    intro j g1 hj heq
    obtain ⟨t, ht⟩ := forall_put h.rooted (by rw [hsame.space]; exact ⟨r, hr⟩) j g1 hj
    rw [ht.pml4, hpml] at heq
    obtain rfl : t = x := by omega
    exact ht.mem.elim h0 hnew
  have hchild : child.base % 4096 = 0 ∧ child.size % 4096 = 0 := by
    rw [hbase, hsize]
    exact h.base i g hi
  have hadd : Sane { s.put i g' pl' with spaces := s.spaces.set i g' ++ [child] }
      (insert x roots) 0 :=
    Sane.append hstay hchild (mem_insert_self x roots) hpml hxnew
  refine ⟨insert x roots, hadd, fun y hy => ?_, hf.ctrl, fun j g1 hj => ?_⟩
  · rcases mem_insert.mp hy with rfl | hy
    · exact ⟨(s.spaces.set i g').length, child, List.getElem?_concat_length, hpml⟩
    obtain ⟨j, g1, hj, hpml1⟩ := h.live y hy
    obtain ⟨g2, hj2, hpml2⟩ : ∃ g2, (s.spaces.set i g')[j]? = some g2 ∧
        g2.space.pml4 = y * 4096 := by
      by_cases hji : j = i
      · subst hji
        rw [hi] at hj
        cases hj
        exact ⟨g', getElem?_put_self hi g' pl', by rw [hsame.space, hpml1]⟩
      · exact ⟨g1, (getElem?_put_ne hji g' pl').trans hj, hpml1⟩
    refine ⟨j, g2, ?_, hpml2⟩
    exact (List.getElem?_append_left (List.getElem?_eq_some_iff.mp hj2).1).trans hj2
  have hj : (s.spaces.set i g' ++ [child])[j]? = some g1 := hj
  rw [List.getElem?_append] at hj
  split at hj
  · have hj : (s.put i g' pl').spaces[j]? = some g1 := hj
    exact forall_put h.clear ((h.clear i g hi).of_extent hsame.base hsame.size) j g1 hj
  · obtain ⟨-, rfl⟩ := getElem?_singleton_eq hj
    exact (h.clear i g hi).of_extent hbase hsize

lemma Exact.move (hi : s.spaces[i]? = some g) {g' : GuestMemory}
    {pl' : Pool} {roots' : Finset Nat} {r x : Nat} (hr : Rooted roots g.space r)
    (hbase : g'.base = g.base) (hsize : g'.size = g.size)
    (hf : Furnished roots' (bumps 0 s.held) pl') (hx : Rooted roots' g'.space x)
    (hnew : x = 0 ∨ x ∉ roots) (hroots : ∀ t, t ∈ roots' ↔ t ≠ r ∧ (t ∈ roots ∨ t ≠ 0 ∧ t = x)) :
    Exact (s.put i g' pl') roots' := by
  refine ⟨h.toSane.move hi hr hbase hsize hf.good hx hnew fun t ht hne =>
    (hroots t).mpr ⟨hne, .inl ht⟩, fun t ht => ?_, hf.ctrl, fun j g1 hj => ?_⟩
  · obtain ⟨hne, ht | ⟨-, rfl⟩⟩ := (hroots t).mp ht
    · obtain ⟨j, g1, hj, hpml⟩ := h.live t ht
      have hji : j ≠ i := by
        rintro rfl
        rw [hi] at hj
        cases hj
        have hrp := hr.pml4
        omega
      exact ⟨j, g1, (getElem?_put_ne hji g' pl').trans hj, hpml⟩
    · exact ⟨i, g', getElem?_put_self hi g' pl', hx.pml4⟩
  · exact forall_put h.clear ((h.clear i g hi).of_extent hbase hsize) j g1 hj

lemma Exact.execReset (hs : s.step (.execReset i) = some (b, s')) : ∃ roots', Exact s' roots' := by
  simp only [Sys.step] at hs
  split at hs
  · cases hs
  rename_i g hi
  obtain ⟨o, ho, heq⟩ := Option.map_eq_some_iff.mp hs
  cases heq
  obtain ⟨r, hr⟩ := h.rooted i g hi
  obtain ⟨x, hnew, h0, hbase, hsize, hpml, hf⟩ := h.furnished.execReset hr ho
  have hxr : x ≠ r := by
    rintro rfl
    exact hr.mem.elim h0 hnew
  refine ⟨_, h.move hi hr hbase hsize hf ⟨hpml, .inr ?_⟩ (.inr hnew) fun t => ?_⟩
  · exact mem_erase.mpr ⟨hxr, mem_insert_self x roots⟩
  rw [mem_erase, mem_insert]
  constructor
  · rintro ⟨hne, rfl | ht⟩
    · exact ⟨hne, .inr ⟨h0, rfl⟩⟩
    · exact ⟨hne, .inl ht⟩
  rintro ⟨hne, ht | ⟨-, rfl⟩⟩
  · exact ⟨hne, .inr ht⟩
  · exact ⟨hne, .inl rfl⟩

lemma Exact.retire (hs : s.step (.retire i) = some (b, s')) : ∃ roots', Exact s' roots' := by
  simp only [Sys.step] at hs
  split at hs
  · cases hs
  rename_i g hi
  cases hs
  obtain ⟨r, hr⟩ := h.rooted i g hi
  have hnone : Rooted (roots.erase r) AddrSpace.retired 0 := ⟨rfl, .inl rfl⟩
  refine ⟨_, h.move hi hr rfl rfl (h.furnished.destroy hr) hnone (.inl rfl) fun t => ?_⟩
  rw [mem_erase]
  constructor
  · rintro ⟨hne, ht⟩
    exact ⟨hne, .inl ht⟩
  rintro ⟨hne, ht | ⟨h0, rfl⟩⟩
  · exact ⟨hne, ht⟩
  · exact absurd rfl h0

lemma Exact.allocFrames {n : Nat}
    (hs : s.step (.allocFrames n) = some (b, s')) : Exact s' roots := by
  have hsane := h.toSane.allocFrames hs
  have hcalm := allocFrames_calm n [] (fun _ ha => nomatch ha)
    (show Good s.pool roots (bumps (bumps 0 s.held) []) from h.good)
  simp only [Sys.step] at hs
  cases hres : GuestMemory.allocFrames n [] s.pool with
  | mk res pl' =>
    rw [hres] at hcalm
    simp only [hres] at hs
    have hctrl : ∀ x ∈ roots, CtrlIntact pl' x := fun x hx =>
      (h.ctrl x hx).calm hx hcalm fun _ _ hn => hn
    cases res with
    | none | some frames =>
      cases hs
      exact ⟨hsane, h.live, hctrl, h.clear⟩

lemma Exact.releaseFrames {frames : List Nat} (hop : ∀ a, frames.count a ≤ s.held.count a)
    (hs : s.step (.releaseFrames frames) = some (b, s')) : Exact s' roots := by
  have hsane := h.toSane.releaseFrames hop hs
  obtain ⟨hwhole, hgood⟩ := h.toSane.release_ready hop
  have hcalm := releaseFrames_calm frames hwhole hgood
  cases hs
  exact ⟨hsane, h.live, fun x hx => (h.ctrl x hx).calm hx hcalm fun _ _ hn => hn, h.clear⟩

lemma Exact.step {op : Op} (hop : s.Neat op)
    (hs : s.step op = some (b, s')) : ∃ roots', Exact s' roots' := by
  obtain ⟨hlaw, hfork⟩ := hop
  cases op with
  | call i c => exact ⟨roots, h.call hlaw hs⟩
  | tryFork i => exact h.tryFork (fun g hi => hfork i g rfl hi) hs
  | execReset i => exact h.execReset hs
  | retire i => exact h.retire hs
  | allocFrames n => exact ⟨roots, h.allocFrames hs⟩
  | releaseFrames frames => exact ⟨roots, h.releaseFrames hlaw hs⟩

end

lemma Exact.of_boot {ceiling : Nat} {image : Nat → Byte} {base vsize physBytes : Nat}
    (h : boot ceiling image base vsize physBytes = some s)
    (hclear : ∀ g ∈ s.spaces, g.Clear) : ∃ x, Exact s {x} := by
  obtain ⟨⟨g, pl⟩, hr, rfl⟩ := Option.map_eq_some_iff.mp h
  obtain ⟨x, hb⟩ := newSplit_spec hr
  refine ⟨x, .of_booted hb, fun y hy => ?_, fun y hy => ?_, fun j g1 hj => ?_⟩
  · obtain rfl := mem_singleton.mp hy
    obtain ⟨k, hg⟩ := hb.space
    exact ⟨0, g, rfl, by rw [hg]; rfl⟩
  · obtain rfl := mem_singleton.mp hy
    exact hb.intact
  · exact hclear g1 (List.mem_of_getElem? hj)

lemma Exact.run {s0 : Sys} (h : Exact s0 roots) (hrun : Relation.ReflTransGen (Next Neat) s0 s) :
    ∃ roots', Exact s roots' := by
  induction hrun with
  | refl => exact ⟨roots, h⟩
  | tail _ hlast ih =>
    obtain ⟨op, b, hop, hs⟩ := hlast
    obtain ⟨roots', h'⟩ := ih
    exact h'.step hop hs

end Sys

/-- How many leaves of the trees at `roots` are for frame `f`. -/
def leavesOf (m : PhysMem) (roots : Finset Nat) (f : Nat) : Nat :=
  ∑ x ∈ roots, total ptr 512 (cell m) (leafW f) 4 x

section Counts

variable {pl : Pool} {roots : Finset Nat} {held : Nat → Nat}

lemma refs_eq (m : PhysMem) (roots : Finset Nat) (held : Nat → Nat) (f : Nat) :
    refs ptr 512 (cell m) 4 roots held f =
      ∑ x ∈ roots, total ptr 512 (cell m) (tabW f) 4 x + leavesOf m roots f + held f := by
  unfold refs leavesOf
  simp only [total_ref, sum_add_distrib]

lemma refcount_eq (h : Good pl roots held) {f : Nat} (hf : pl.fa.refcount f ≠ pinned) :
    pl.fa.refcount f = refs ptr 512 (cell pl.phys) 4 roots held f := by
  have h0 : f ≠ 0 := by
    rintro rfl
    exact hf (h.low 0 (by decide))
  have hcount := h.bal.count f fun hp => hf hp.2
  rwa [rcOf, if_neg h0] at hcount

lemma Good.refcount_table (h : Good pl roots held) {f : Nat} (hf : pl.fa.refcount f ≠ pinned)
    (ht : IsTable pl.phys roots f) : pl.fa.refcount f = leavesOf pl.phys roots f + 1 + held f := by
  obtain ⟨r, hr, hpos⟩ := ht
  have hone := (h.bal.single r hr f hpos).1
  have hle : total ptr 512 (cell pl.phys) (tabW f) 4 r ≤
      ∑ x ∈ roots, total ptr 512 (cell pl.phys) (tabW f) 4 x :=
    single_le_sum (fun _ _ => Nat.zero_le _) hr
  rw [refcount_eq h hf]
  rw [refs_eq] at hone ⊢
  omega

lemma Good.refcount_data (h : Good pl roots held) {f : Nat} (hf : pl.fa.refcount f ≠ pinned)
    (ht : ¬IsTable pl.phys roots f) : pl.fa.refcount f = leavesOf pl.phys roots f + held f := by
  have hnone : ∑ x ∈ roots, total ptr 512 (cell pl.phys) (tabW f) 4 x = 0 := by
    refine sum_eq_zero fun x hx => ?_
    by_contra hne
    exact ht ⟨x, hx, pos_of_ne_zero hne⟩
  rw [refcount_eq h hf, refs_eq, hnone, zero_add]

lemma Good.allocated_eq (h : Good pl roots held) (hsat : ∀ f, 8 ≤ f → pl.fa.refcount f ≠ pinned) :
    pl.fa.allocated = ((range pl.fa.bound).filter fun f =>
      pl.fa.refcount f ≠ pinned ∧ pl.fa.refcount f ≠ 0).card := by
  rw [h.live]
  refine congrArg card (filter_congr fun f _ => and_congr_left fun _ => ?_)
  refine ⟨hsat f, fun hf => ?_⟩
  by_contra hlt
  exact hf (h.low f (by omega))

end Counts

namespace Sys

/-- **Every frame is accounted for.** In every state of a neat run an unpinned frame has one
reference for each leaf, for being a table and for each time it was handed out; the free list has
the others, each once; and the frames in use are counted right, unless a count has saturated. -/
theorem frames_accounted {ceiling : Nat} {image : Nat → Byte} {base vsize physBytes : Nat}
    {s0 s : Sys} (hboot : boot ceiling image base vsize physBytes = some s0)
    (hclear : ∀ g ∈ s0.spaces, g.Clear) (hrun : Relation.ReflTransGen (Next Neat) s0 s) :
    ∃ roots : Finset Nat, (∀ x, x ∈ roots ↔ x ≠ 0 ∧ ∃ g ∈ s.spaces, g.space.pml4 = x * 4096) ∧
      (∀ f, s.pool.fa.refcount f ≠ pinned → (IsTable s.pool.phys roots f → s.pool.fa.refcount f =
          leavesOf s.pool.phys roots f + 1 + s.held.count (f * 4096)) ∧
        (¬IsTable s.pool.phys roots f → s.pool.fa.refcount f =
          leavesOf s.pool.phys roots f + s.held.count (f * 4096))) ∧ s.pool.fa.freeList.Nodup ∧
      (∀ f, f ∈ s.pool.fa.freeList ↔ f < s.pool.fa.bound ∧ s.pool.fa.refcount f = 0) ∧
      ((∀ f, 8 ≤ f → s.pool.fa.refcount f ≠ pinned) → s.pool.fa.allocated =
        ((range s.pool.fa.bound).filter fun f =>
          s.pool.fa.refcount f ≠ pinned ∧ s.pool.fa.refcount f ≠ 0).card) := by
  obtain ⟨x0, hx0⟩ := Exact.of_boot hboot hclear
  obtain ⟨roots, h⟩ := hx0.run hrun
  have hheld : ∀ f, bumps 0 s.held f = s.held.count (f * 4096) := fun f => zero_add _
  refine ⟨roots, fun x => ⟨fun hx => ?_, ?_⟩, fun f hf => ⟨fun ht => ?_, fun ht => ?_⟩, h.good.nodup,
    h.good.free, h.good.allocated_eq⟩
  · obtain ⟨i, g, hi, hpml⟩ := h.live x hx
    exact ⟨(h.good.rc_of_table ⟨x, hx, tab_self 3 x⟩).1, g, List.mem_of_getElem? hi, hpml⟩
  · rintro ⟨h0, g, hg, hpml⟩
    obtain ⟨i, hi⟩ := List.getElem?_of_mem hg
    obtain ⟨r, hr⟩ := h.rooted i g hi
    have hrp := hr.pml4
    obtain rfl : r = x := by omega
    exact hr.mem.resolve_left h0
  · rw [h.good.refcount_table hf ht, hheld]
  · rw [h.good.refcount_data hf ht, hheld]

lemma clear_small : ∀ p < u64 (nextMultipleOf (max 65536 4096) 16384) / 4096,
    ∀ va ∈ Ctrl.vas, path (65536 + p * 4096) ≠ path va := by decide +kernel

theorem frames_accounted_reset : ∃ s0 s, boot (2 ^ 30) (fun _ => 0) 65536 65536 (2 ^ 21) = some s0 ∧
    steps [.call 0 (.map 65536 8192 .rw), .call 0 (.write 65536 [7]), .allocFrames 2,
      .execReset 0] s0 = some s ∧ (∀ g ∈ s0.spaces, g.Clear) ∧ s.held.length = 2 ∧
    ∃ roots : Finset Nat, (∀ x, x ∈ roots ↔ x ≠ 0 ∧ ∃ g ∈ s.spaces, g.space.pml4 = x * 4096) ∧
      ∀ f, s.pool.fa.refcount f ≠ pinned → ¬IsTable s.pool.phys roots f →
        s.pool.fa.refcount f = leavesOf s.pool.phys roots f + s.held.count (f * 4096) := by
  obtain ⟨s0, s, hboot, hsteps, hlen⟩ := exists_of_steps
    (boot (2 ^ 30) (fun _ => 0) 65536 65536 (2 ^ 21))
    [.call 0 (.map 65536 8192 .rw), .call 0 (.write 65536 [7]), .allocFrames 2, .execReset 0]
    (P := fun s => s.held.length = 2) (by decide +kernel)
  have hclear : ∀ g ∈ s0.spaces, g.Clear := by
    obtain ⟨⟨g, pl⟩, hr, rfl⟩ := Option.map_eq_some_iff.mp hboot
    obtain ⟨x, hb⟩ := newSplit_spec hr
    obtain ⟨k, hg⟩ := hb.space
    intro g' hg'
    rw [List.mem_singleton.mp hg']
    rw [hg]
    exact clear_small
  have hreach := reach_of_steps Neat _ (fun op hop s => by
    fin_cases hop <;> exact ⟨trivial, nofun⟩) hsteps
  obtain ⟨roots, hroots, hcount, -⟩ := frames_accounted hboot hclear hreach
  exact ⟨s0, s, hboot, hsteps, hclear, hlen, roots, hroots,
    fun f hf ht => (hcount f hf).2 ht⟩

end Sys

end NixVm
