/-
What the page operations of a space do, as seen by everybody.

`view` is all that any reader of a tree can tell: the leaf at an address, and the bytes of its
frame. `Edit` says that a step shows nowhere but at the addresses it is about, that the books are
right after it, and by how much it can have raised a refcount.
-/
import NixVm.Proofs.Fork

namespace NixVm

open Finset Radix Option GuestMemory

def view (m : PhysMem) (r va : Nat) : Option (BitVec 64 × (Fin 4096 → Byte)) :=
  (leaf m r va).map fun e => (e, fun k => m.byte (Pte.addr e + k))

lemma leaf_eq_view (m : PhysMem) (r va : Nat) : leaf m r va = (view m r va).map Prod.fst := by
  unfold view
  cases leaf m r va <;> rfl

variable {m : PhysMem} {r va : Nat}

lemma view_none : view m r va = none ↔ leaf m r va = none := by
  unfold view
  cases leaf m r va <;> simp

lemma view_some {e : BitVec 64} {b : Fin 4096 → Byte} : view m r va = some (e, b) ↔
      leaf m r va = some e ∧ b = fun k : Fin 4096 => m.byte (Pte.addr e + k) := by
  unfold view
  cases leaf m r va with
  | none => simp
  | some e' =>
    simp only [map_some, Option.some.injEq, Prod.mk.injEq]
    constructor
    · rintro ⟨rfl, rfl⟩; exact ⟨rfl, rfl⟩
    · rintro ⟨rfl, rfl⟩; exact ⟨rfl, rfl⟩

lemma view_congr {m' : PhysMem} (hl : leaf m' r va = leaf m r va)
    (hb : ∀ e f, leaf m r va = some e → ptr e = some f → Same m m' f) :
    view m' r va = view m r va := by
  unfold view
  rw [hl]
  cases he : leaf m r va with
  | none => rfl
  | some e =>
    have ⟨f, hf⟩ := leaf_present he
    have hsame := hb e f he hf
    simp only [map_some, Option.some.injEq, Prod.mk.injEq, true_and]
    funext k
    rw [(ptr_eq_some.mp hf).2]
    exact hsame k k.isLt

/-- The tree of `s` is the one at `r`, or `s` is retired. -/
structure Rooted (roots : Finset Nat) (s : AddrSpace) (r : Nat) : Prop where
  pml4 : s.pml4 = r * 4096
  mem : r = 0 ∨ r ∈ roots

/-- The address `va` of the tree at `r`, however it is written. -/
def At (r va : Nat) : Nat → Nat → Prop := fun s vb => s = r ∧ path vb = path va

def Nowhere : Nat → Nat → Prop := fun _ _ => False

namespace Good

variable {pl : Pool} {roots : Finset Nat} {held : Nat → Nat} {r : Nat}

variable {f : Nat}

section

variable (h : Good pl roots held)
include h

lemma data_of_leaf (hr : r ∈ roots) {va : Nat} {e : BitVec 64}
    (hl : leaf pl.phys r va = some e) (he : ptr e = some f) : Data pl roots f :=
  ⟨(h.used_of_leaf hr hl he).2, isTable_iff.mpr (h.bal.not_table_of_leaf hr
    (leaf_of_look (path_lt va) (length_path va) hl he))⟩

lemma mem_of_leaf {s : AddrSpace} (hs : Rooted roots s r) {va : Nat}
    {e : BitVec 64} (hl : leaf pl.phys r va = some e) : r ∈ roots := by
  rcases hs.mem with rfl | hr
  · rw [h.leaf_null va] at hl
    simp at hl
  · exact hr

lemma pinned_data (hf : pl.fa.refcount f = pinned) : Data pl roots f := by
  refine ⟨by rw [hf]; simp [pinned], fun ht => ?_⟩
  have := (h.rc_of_table ht).2
  rw [hf] at this
  simp [pinned] at this

lemma bump_pinned (hp : pl.fa.refcount f = pinned)
    (h0 : f ≠ 0) : Good pl roots (bump held f) := by
  refine h.congr_held fun g hg => ?_
  rw [bump, if_neg, add_zero]
  rintro rfl
  exact hg.elim (fun hne => hne hp) h0

end

lemma unbump_pinned (h : Good pl roots (bump held f))
    (hp : pl.fa.refcount f = pinned) (h0 : f ≠ 0) : Good pl roots held := by
  refine h.congr_held fun g hg => ?_
  rw [bump, if_neg, add_zero]
  rintro rfl
  exact hg.elim (fun hne => hne hp) h0

end Good

/-- The step shows only at the addresses `A`, and raises refcounts by at most `up`. -/
structure Edit (pl : Pool) (roots : Finset Nat) (held : Nat → Nat) (up : Nat → Nat)
    (A : Nat → Nat → Prop) (pl' : Pool) : Prop where
  good : Good pl' roots held
  view_eq : ∀ s ∈ roots, ∀ vb, ¬ A s vb → view pl'.phys s vb = view pl.phys s vb
  le : ∀ f, pl'.fa.refcount f ≤ max 1 (pl.fa.refcount f) + up f
  pin : ∀ f, pl.fa.refcount f = pinned → pl'.fa.refcount f = pinned
  /-- The control block is not written. -/
  low : ∀ f, f < 8 → Same pl.phys pl'.phys f

namespace Edit

variable {pl pl1 pl2 : Pool} {roots : Finset Nat} {held held' : Nat → Nat} {up up' : Nat → Nat}
  {A B : Nat → Nat → Prop}

lemma refl (h : Good pl roots held) : Edit pl roots held 0 A pl :=
  ⟨h, fun _ _ _ _ => rfl, fun _ => by simp, fun _ hf => hf, fun _ _ _ _ => rfl⟩

section

variable (h : Edit pl roots held up A pl1)
include h

lemma leaf_eq {s : Nat} (hs : s ∈ roots) {vb : Nat}
    (hn : ¬ A s vb) : leaf pl1.phys s vb = leaf pl.phys s vb := by
  rw [leaf_eq_view, leaf_eq_view, h.view_eq s hs vb hn]

lemma trans (h' : Edit pl1 roots held' up' B pl2) :
    Edit pl roots held' (up + up') (fun s vb => A s vb ∨ B s vb) pl2 where
  good := h'.good
  view_eq := fun s hs vb hn => (h'.view_eq s hs vb fun hb => hn (.inr hb)).trans
      (h.view_eq s hs vb fun ha => hn (.inl ha))
  le := fun f => by
    have h1 := h.le f
    have h2 := h'.le f
    simp only [Pi.add_apply]
    omega
  pin := fun f hf => h'.pin f (h.pin f hf)
  low := fun f hf => (h.low f hf).trans (h'.low f hf)

lemma mono (hu : ∀ f, up f ≤ up' f)
    (hab : ∀ s vb, A s vb → B s vb) : Edit pl roots held up' B pl1 :=
  { h with
    view_eq := fun s hs vb hn => h.view_eq s hs vb fun ha => hn (hab s vb ha)
    le := fun f => le_trans (h.le f) (Nat.add_le_add_left (hu f) _) }

end

lemma trans_same (h : Edit pl roots held 0 A pl1) (h' : Edit pl1 roots held' 0 A pl2) :
    Edit pl roots held' 0 A pl2 :=
  (h.trans h').mono (fun _ => by simp) fun _ _ ha => ha.elim id id

lemma of_keeps {held0 : Nat → Nat} (h0 : Good pl roots held0) (hg : Good pl1 roots held)
    (hk : Keeps pl roots pl1 roots)
    (hl : ∀ s ∈ roots, ∀ vb, ¬ A s vb → leaf pl1.phys s vb = leaf pl.phys s vb) :
    Edit pl roots held 0 A pl1 where
  good := hg
  view_eq := fun s hs vb hn => view_congr (hl s hs vb hn) fun _ f he hf =>
    (hk.data f (h0.data_of_leaf hs he hf)).2.2
  le := fun f => hk.le f
  pin := fun f hf => (hk.data f (h0.pinned_data hf)).2.1.trans hf
  low := fun f hf => (hk.data f (h0.pinned_data (h0.low f hf))).2.2

lemma release {f : Nat} (h : Edit pl roots (bump held f) up A pl1) :
    Edit pl roots held up A (pl1.free (f * 4096)) where
  good := h.good.release
  view_eq := h.view_eq
  le := fun g => le_trans (h.good.release_le g) (h.le g)
  pin := fun g hg => (h.good.release_pin g).mpr (h.pin g hg)
  low := h.low

lemma releaseLeaf {e : BitVec 64} {f : Nat} (he : ptr e = some f)
    (h : Edit pl roots (bumpEntry ptr held e) up A pl1) :
    Edit pl roots held up A (pl1.free (Pte.addr e)) := by
  rw [bumpEntry_some he] at h
  rw [(ptr_eq_some.mp he).2]
  exact h.release

end Edit

/-- What remains of an edit if one does not look at the bytes. -/
structure Moves (pl : Pool) (roots : Finset Nat) (held : Nat → Nat) (up : Nat → Nat)
    (A : Nat → Nat → Prop) (pl' : Pool) : Prop where
  good : Good pl' roots held
  leaf_eq : ∀ s ∈ roots, ∀ vb, ¬ A s vb → leaf pl'.phys s vb = leaf pl.phys s vb
  le : ∀ f, pl'.fa.refcount f ≤ max 1 (pl.fa.refcount f) + up f
  pin : ∀ f, pl.fa.refcount f = pinned → pl'.fa.refcount f = pinned

lemma Edit.moves {pl pl1 : Pool} {roots : Finset Nat} {held up : Nat → Nat}
    {A : Nat → Nat → Prop} (h : Edit pl roots held up A pl1) : Moves pl roots held up A pl1 :=
  ⟨h.good, fun _ hs _ hn => h.leaf_eq hs hn, h.le, h.pin⟩

namespace Moves

variable {pl pl1 pl2 : Pool} {roots : Finset Nat} {held held' : Nat → Nat} {up up' : Nat → Nat}
  {A B : Nat → Nat → Prop}

lemma refl (h : Good pl roots held) : Moves pl roots held 0 A pl := (Edit.refl h).moves

lemma trans (h : Moves pl roots held up A pl1) (h' : Moves pl1 roots held' up' B pl2) :
    Moves pl roots held' (up + up') (fun s vb => A s vb ∨ B s vb) pl2 where
  good := h'.good
  leaf_eq := fun s hs vb hn => (h'.leaf_eq s hs vb fun hb => hn (.inr hb)).trans
      (h.leaf_eq s hs vb fun ha => hn (.inl ha))
  le := fun f => by
    have h1 := h.le f
    have h2 := h'.le f
    simp only [Pi.add_apply]
    omega
  pin := fun f hf => h'.pin f (h.pin f hf)

lemma mono (h : Moves pl roots held up A pl1) (hu : ∀ f, up f ≤ up' f)
    (hab : ∀ s vb, A s vb → B s vb) : Moves pl roots held up' B pl1 :=
  { h with
    leaf_eq := fun s hs vb hn => h.leaf_eq s hs vb fun ha => hn (hab s vb ha)
    le := fun f => le_trans (h.le f) (Nat.add_le_add_left (hu f) _) }

lemma trans_same (h : Moves pl roots held 0 A pl1) (h' : Moves pl1 roots held' 0 A pl2) :
    Moves pl roots held' 0 A pl2 :=
  (h.trans h').mono (fun _ => by simp) fun _ _ ha => ha.elim id id

end Moves

section Steps

variable {pl : Pool} {roots : Finset Nat} {held : Nat → Nat} {r : Nat} {s : AddrSpace}

variable {f va : Nat}

lemma Fresh.edit {pl1 : Pool} (hf : Fresh pl pl1 f) (h : Good pl roots held)
    (h1 : Good pl1 roots (bump held f)) : Edit pl roots (bump held f) 0 Nowhere pl1 :=
  Edit.of_keeps h h1 (hf.keeps h) fun s hs vb _ => (hf.steady h).quiet s hs vb

lemma map_edit (h : Good pl roots (bump held f)) (hs : Rooted roots s r)
    (hva : va % 4096 = 0) (prot : Prot) (supervisor : Bool) :
    match s.map va (f * 4096) prot supervisor pl with
    | (.ok old, pl') => r ∈ roots ∧ old = (leaf pl.phys r va).map Pte.addr ∧
        Edit pl roots (bumpLeaf held (leaf pl.phys r va)) 0 (At r va) pl' ∧
        Keeps pl roots pl' roots ∧
        leaf pl'.phys r va = some (Pte.make (f * 4096) (leafFlags prot supervisor))
    | (.error _, pl') => Edit pl roots (bump held f) 0 Nowhere pl' := by
  rcases hs.mem with rfl | hr
  · have hmap : s.map va (f * 4096) prot supervisor pl = (.error .retired, pl) := by
      rw [AddrSpace.map, if_pos (by rw [hs.pml4])]
    rw [hmap]
    exact Edit.refl h
  have hspec := map_spec h hr hs.pml4 hva prot supervisor
  cases hres : s.map va (f * 4096) prot supervisor pl with
  | mk res pl' =>
    rw [hres] at hspec
    cases res with
    | error err => exact Edit.of_keeps h hspec.good hspec.keeps fun s hs vb _ => hspec.quiet s hs vb
    | ok old =>
      refine ⟨hr, hspec.old_eq, Edit.of_keeps h hspec.good hspec.keeps fun s hs vb hn => ?_,
        hspec.keeps, ?_⟩
      · exact (hspec.leaf_eq s hs vb).trans (if_neg hn)
      · rw [hspec.leaf_eq r hr va, if_pos ⟨rfl, rfl⟩]

lemma dropLeaf_spec (h : Good pl roots held) (hs : Rooted roots s r) (va : Nat) :
    (dropLeaf s va pl).1 = (leaf pl.phys r va).isSome ∧
      Edit pl roots held 0 (At r va) (dropLeaf s va pl).2 ∧
      leaf (dropLeaf s va pl).2.phys r va = none := by
  unfold dropLeaf
  cases hl : leaf pl.phys r va with
  | none =>
    rw [unmap_none hs.pml4 hl]
    exact ⟨rfl, Edit.refl h, hl⟩
  | some e =>
    have hr := h.mem_of_leaf hs hl
    have ⟨f, hf⟩ := leaf_present hl
    have ⟨pl1, heq, htook⟩ := unmap_spec h hr hs.pml4 hl
    rw [heq]
    have hedit : Edit pl roots (bumpEntry ptr held e) 0 (At r va) pl1 :=
      Edit.of_keeps h htook.good htook.keeps fun s hs vb hn =>
        (htook.leaf_eq s hs vb).trans (if_neg hn)
    refine ⟨rfl, hedit.releaseLeaf hf, ?_⟩
    exact (htook.leaf_eq r hr va).trans (if_pos ⟨rfl, rfl⟩)

def NewPage (pl : Pool) (r va : Nat) (prot : Prot) : Prop :=
  ∃ f, 8 ≤ f ∧ f < 2 ^ 32 ∧ pl.fa.refcount f = 1 ∧
    view pl.phys r va = some (Pte.make (f * 4096) (leafFlags prot false), fun _ => 0)

lemma Pte.addr_leaf (hf : f < 2 ^ 32) (prot : Prot) (supervisor : Bool) :
    Pte.addr (Pte.make (f * 4096) (leafFlags prot supervisor)) = f * 4096 :=
  (ptr_eq_some.mp (ptr_leaf hf prot supervisor)).2

lemma view_leaf {m : PhysMem} {prot : Prot} {supervisor : Bool}
    {b : Fin 4096 → Byte} (hf : f < 2 ^ 32)
    (hl : leaf m r va = some (Pte.make (f * 4096) (leafFlags prot supervisor)))
    (hb : ∀ k : Fin 4096, m.byte (f * 4096 + k) = b k) :
    view m r va = some (Pte.make (f * 4096) (leafFlags prot supervisor), b) := by
  refine view_some.mpr ⟨hl, ?_⟩
  funext k
  rw [Pte.addr_leaf hf]
  exact (hb k).symm

lemma ensureBacked_spec (h : Good pl roots held) (hs : Rooted roots s r)
    (hva : va % 4096 = 0) (prot : Prot) : match ensureBacked s prot pl va with
    | (true, pl') => Edit pl roots held 0 (At r va) pl' ∧
        (pl' = pl ∧ leaf pl.phys r va ≠ none ∨
          leaf pl.phys r va = none ∧ r ∈ roots ∧ NewPage pl' r va prot)
    | (false, pl') => Edit pl roots held 0 Nowhere pl' ∧ leaf pl.phys r va = none := by
  unfold ensureBacked
  rw [translate_eq hs.pml4, isSome_map]
  cases hl : leaf pl.phys r va with
  | some e =>
    exact ⟨Edit.refl h, .inl ⟨rfl, by simp⟩⟩
  | none =>
    cases ha : pl.alloc with
    | none => exact ⟨Edit.refl h, rfl⟩
    | some res =>
      obtain ⟨pa, pl1⟩ := res
      obtain ⟨f, rfl, hfresh, hg1⟩ := h.alloc ha
      have he1 := hfresh.edit h hg1
      have hmap := map_edit hg1 hs hva prot false
      dsimp only
      cases hres : s.map va (f * 4096) prot false pl1 with
      | mk res pl2 =>
        rw [hres] at hmap
        cases res with
        | error err =>
          have hall := (he1.trans_same hmap).release
          exact ⟨hall, rfl⟩
        | ok old =>
          obtain ⟨hr, -, he2, hk, hleaf⟩ := hmap
          have hl1 : leaf pl1.phys r va = none := by
            rw [he1.leaf_eq hr id, hl]
          rw [hl1] at he2
          have hd := hk.data f (hg1.data_of_held (bump_self_pos held f))
          refine ⟨(he1.mono (fun _ => le_rfl) fun _ _ hn => hn.elim).trans_same he2,
            .inr ⟨rfl, hr, f, hfresh.low, hfresh.lt, hd.2.1.trans hfresh.rc_self,
              view_leaf hfresh.lt hleaf fun k => ?_⟩⟩
          rw [hd.2.2 k k.isLt]
          exact hfresh.zero k k.isLt

lemma copyFrame_self (m : PhysMem) (dst src : Nat) {k : Nat} (hk : k < 4096) :
    (m.copyFrame (dst * 4096) (src * 4096)).byte (dst * 4096 + k) = m.byte (src * 4096 + k) := by
  change Bytes.store m.byte (dst * 4096) 4096 (fun i => m.byte (src * 4096 + i)) _ = _
  rw [Bytes.store_of_mem _ _ (by omega), Nat.add_sub_cancel_left]

lemma same_copyFrame (m : PhysMem) {dst : Nat} (src : Nat) (hf : f ≠ dst) :
    Same m (m.copyFrame (dst * 4096) src) f := by
  intro k hk
  change Bytes.store m.byte (dst * 4096) 4096 (fun i => m.byte (src + i)) _ = _
  exact Bytes.store_of_disjoint _ _ (by omega)

lemma edit_copyFrame (h : Good pl roots (bump held f)) (hlow : 8 ≤ f)
    (hnot : ∀ s ∈ roots, ∀ va e, leaf pl.phys s va = some e → ptr e ≠ some f) (src : Nat) :
    Edit pl roots (bump held f) 0 Nowhere { pl with phys := pl.phys.copyFrame (f * 4096) src } := by
  obtain ⟨hf0, -⟩ := h.used_of_held (bump_self_pos held f)
  have hd := h.data_of_held (bump_self_pos held f)
  have hsteady : Steady pl.phys roots (pl.phys.copyFrame (f * 4096) src) := by
    intro t ht
    refine same_copyFrame pl.phys src ?_
    rintro rfl
    exact hd.notTable ht
  refine ⟨h.fill hsteady (same_copyFrame pl.phys src (Ne.symm hf0)), fun s hs vb _ => ?_,
    fun g => by simp, fun _ hg => hg, fun g hg => same_copyFrame pl.phys src (by omega)⟩
  refine view_congr (hsteady.quiet s hs vb) fun e g he hg => same_copyFrame pl.phys src ?_
  rintro rfl
  exact hnot s hs vb e he hg

/-- After `makeWritable`: the same bytes in a leaf with all of `prot`, whose frame is not shared
unless meant to be. -/
structure Writable (pl : Pool) (r va : Nat) (prot : Prot) (sharedAnon : Bool) (pl' : Pool) :
    Prop where
  page : ∀ e b, view pl.phys r va = some (e, b) → ∃ f, f < 2 ^ 32 ∧
    view pl'.phys r va = some (Pte.make (f * 4096) (leafFlags prot false), b) ∧
    (sharedAnon = false → pl'.fa.refcount f = 1) ∧
    (sharedAnon = true → ptr e = some f ∧ pl'.fa = pl.fa)
  absent : leaf pl.phys r va = none → pl' = pl

lemma protect_edit (h : Good pl roots held) (hs : Rooted roots s r) (va : Nat) (prot : Prot)
    (supervisor : Bool) : (s.protect va prot supervisor pl).1 = (leaf pl.phys r va).isSome ∧
      Edit pl roots held 0 (At r va) (s.protect va prot supervisor pl).2 ∧
      (s.protect va prot supervisor pl).2.fa = pl.fa ∧
      (leaf pl.phys r va = none → s.protect va prot supervisor pl = (false, pl)) ∧
      ∀ e b f, view pl.phys r va = some (e, b) → ptr e = some f → f < 2 ^ 32 ∧
        view (s.protect va prot supervisor pl).2.phys r va
          = some (Pte.make (f * 4096) (leafFlags prot supervisor), b) := by
  have habsent : leaf pl.phys r va = none → s.protect va prot supervisor pl = (false, pl) := by
    intro hl
    unfold AddrSpace.protect
    rw [leafPtePa_eq hs.pml4]
    cases hat : tableAt ptr (cell pl.phys) r (upper va) with
    | none => rfl
    | some t =>
      have hread : pl.phys.readU64 (t * 4096 + tableIndex va 1 * 8)
          = cell pl.phys t (tableIndex va 1) := rfl
      have hpres : Pte.present (cell pl.phys t (tableIndex va 1)) = false := by
        rw [← ptr_eq_none]
        rw [leaf, path, look_append_single, hat] at hl
        simpa using hl
      simp only [map_some, hread, hpres, Bool.not_false, if_true]
  cases hl : leaf pl.phys r va with
  | none =>
    rw [habsent hl]
    refine ⟨rfl, Edit.refl h, rfl, fun _ => rfl, fun e b f hv => ?_⟩
    rw [view_none.mpr hl] at hv
    simp at hv
  | some e =>
    have hr := h.mem_of_leaf hs hl
    obtain ⟨f, hf⟩ := leaf_present hl
    obtain ⟨hres, hg, hk, hfa, hleaf⟩ := protect_spec h hr hs.pml4 va prot supervisor
    refine ⟨by rw [hres, hl], Edit.of_keeps h hg hk fun s hs vb hn =>
      (hleaf s hs vb).trans (if_neg hn), hfa, fun hn => by simp at hn, fun e' b f' hv hf' => ?_⟩
    obtain ⟨hl', hb⟩ := view_some.mp hv
    obtain rfl : e = e' := by rw [hl] at hl'; simpa using hl'
    have hd := h.data_of_leaf hr hl hf'
    have hlt := h.frame_lt hd.used
    have haddr := (ptr_eq_some.mp hf').2
    refine ⟨hlt, view_leaf hlt ?_ fun k => ?_⟩
    · rw [hleaf r hr va, if_pos ⟨rfl, rfl⟩, hl, map_some, haddr]
    · rw [(hk.data f' hd).2.2 k k.isLt, hb, haddr]

lemma privatize {e : BitVec 64} {new : Nat} {pl1 : Pool} (prot : Prot)
    (h : Good pl roots held) (hs : Rooted roots s r) (hva : va % 4096 = 0)
    (hl : leaf pl.phys r va = some e) (hf : ptr e = some f) (hfresh : Fresh pl pl1 new)
    (hg1 : Good pl1 roots (bump held new)) : match s.map va (new * 4096) prot false
        { pl1 with phys := pl1.phys.copyFrame (new * 4096) (f * 4096) } with
    | (.ok old, pl') => old = some (f * 4096) ∧ Edit pl roots (bump held f) 0 (At r va) pl' ∧
        (∀ b, view pl.phys r va = some (e, b) →
          view pl'.phys r va = some (Pte.make (new * 4096) (leafFlags prot false), b)) ∧
        pl'.fa.refcount new = 1 ∧ new ≠ f
    | (.error _, pl') => Edit pl roots (bump held new) 0 Nowhere pl' := by
  have hr := h.mem_of_leaf hs hl
  have hd := h.data_of_leaf hr hl hf
  have hne : f ≠ new := hfresh.ne_of_used hd.used
  have he1 := hfresh.edit h hg1
  have hnot : ∀ s ∈ roots, ∀ va e, leaf pl1.phys s va = some e → ptr e ≠ some new := by
    intro s' hs' va' e' hl' he'
    rw [(hfresh.steady h).quiet s' hs' va'] at hl'
    exact (h.data_of_leaf hs' hl' he').used hfresh.free
  have he2 := he1.trans_same (edit_copyFrame hg1 hfresh.low hnot (f * 4096))
  have hmap := map_edit he2.good hs hva prot false
  have hleaf2 : leaf (pl1.phys.copyFrame (new * 4096) (f * 4096)) r va = some e := by
    rw [← hl]
    exact he2.leaf_eq hr fun hn => hn
  cases hres : s.map va (new * 4096) prot false
      { pl1 with phys := pl1.phys.copyFrame (new * 4096) (f * 4096) } with
  | mk res pl3 =>
    rw [hres] at hmap
    cases res with
    | error err => exact he2.trans_same hmap
    | ok old =>
      obtain ⟨-, hold, he3, hk, hleaf3⟩ := hmap
      rw [hleaf2] at hold he3
      have hdn := hk.data new (he2.good.data_of_held (bump_self_pos held new))
      refine ⟨by rw [hold, map_some, (ptr_eq_some.mp hf).2], ?_, fun b hb => ?_,
        hdn.2.1.trans hfresh.rc_self, Ne.symm hne⟩
      · rw [bumpLeaf, bumpEntry_some hf] at he3
        exact (he2.mono (fun _ => le_rfl) fun _ _ hn => hn.elim).trans_same he3
      refine view_leaf hfresh.lt hleaf3 fun k => ?_
      rw [hdn.2.2 k k.isLt]
      refine (copyFrame_self pl1.phys new f k.isLt).trans ?_
      rw [hfresh.same f hne k k.isLt, (view_some.mp hb).2, (ptr_eq_some.mp hf).2]

/-- **`makeWritable`.** -/
lemma makeWritable_spec (h : Good pl roots held) (hs : Rooted roots s r)
    (hva : va % 4096 = 0) (prot : Prot) (sharedAnon : Bool) :
    match makeWritable s prot pl va sharedAnon with
    | (.ok changed, pl') => changed = (leaf pl.phys r va).isSome ∧
        Edit pl roots held 0 (At r va) pl' ∧ Writable pl r va prot sharedAnon pl'
    | (.error e, pl') => e = .exhausted ∧ Edit pl roots held 0 Nowhere pl' := by
  unfold makeWritable
  rw [translate_eq hs.pml4]
  cases hl : leaf pl.phys r va with
  | none => exact ⟨rfl, Edit.refl h, fun e b hv => by simp [view_none.mpr hl] at hv, fun _ => rfl⟩
  | some e =>
    have hr := h.mem_of_leaf hs hl
    have ⟨f, hf⟩ := leaf_present hl
    have hd := h.data_of_leaf hr hl hf
    have haddr := (ptr_eq_some.mp hf).2
    simp only [map_some, pageOf_paddr, haddr, h.refcountAt_eq hd.used]
    by_cases hc : (!sharedAnon && decide (1 < pl.fa.refcount f)) = true
    · -- the frame is shared copy-on-write
      obtain ⟨hshare, -⟩ := Bool.and_eq_true_iff.mp hc
      have hshare : sharedAnon = false := by simpa using hshare
      rw [if_pos hc]
      cases ha : pl.alloc with
      | none => exact ⟨rfl, Edit.refl h⟩
      | some res =>
        obtain ⟨pa, pl1⟩ := res
        obtain ⟨new, rfl, hfresh, hg1⟩ := h.alloc ha
        have hpriv := privatize prot h hs hva hl hf hfresh hg1
        dsimp only
        cases hres : s.map va (new * 4096) prot false
            { pl1 with phys := pl1.phys.copyFrame (new * 4096) (f * 4096) } with
        | mk res pl3 =>
          rw [hres] at hpriv
          cases res with
          | error err => exact ⟨rfl, hpriv.release⟩
          | ok old =>
            obtain ⟨rfl, he3, hview, hrc, hne⟩ := hpriv
            refine ⟨rfl, he3.release, fun e' b hv => ?_, fun hn => by simp [hl] at hn⟩
            obtain ⟨hl', -⟩ := view_some.mp hv
            obtain rfl : e = e' := by rw [hl] at hl'; simpa using hl'
            refine ⟨new, hfresh.lt, hview b hv, fun _ => ?_, fun hc => ?_⟩
            · rw [he3.good.release_rc new, if_neg fun hc => hne hc.1]
              exact hrc
            · rw [hshare] at hc
              simp at hc
    rw [if_neg hc]
    obtain ⟨hres, he, hfa, -, hview⟩ := protect_edit h hs va prot false
    refine ⟨by rw [hres, hl], he, fun e' b hv => ?_, fun hn => by simp [hl] at hn⟩
    obtain ⟨hl', -⟩ := view_some.mp hv
    obtain rfl : e = e' := by rw [hl] at hl'; simpa using hl'
    have ⟨hlt, hv'⟩ := hview e b f hv hf
    refine ⟨f, hlt, hv', fun hshare => ?_, fun _ => ⟨hf, hfa⟩⟩
    rw [hfa]
    have hused := hd.used
    simp only [hshare, Bool.not_false, Bool.true_and, decide_eq_true_eq] at hc
    omega

lemma retain_edit (h : Good pl roots held) (hd : Data pl roots f)
    (h0 : f ≠ 0) : Edit pl roots (bump held f) (bump 0 f) Nowhere (pl.incref (f * 4096)) := by
  refine ⟨h.retain hd h0, fun _ _ _ _ => rfl, fun g => ?_, fun g hg => ?_, fun _ _ _ _ => rfl⟩
  · rw [h.retain_rc hd g]
    simp only [bump, Pi.zero_apply]
    by_cases hgf : g = f
    · subst hgf
      simp only [if_true]
      omega
    · simp only [hgf, if_false]
      omega
  rw [h.retain_rc hd g]
  split
  next hgf =>
    rw [← hgf, hg]
    omega
  · exact hg

lemma share_spec (h : Good pl roots held) (hs : Rooted roots s r)
    (hva : va % 4096 = 0) (hd : Data pl roots f) (h0 : f ≠ 0) (prot : Prot) :
    match s.map va (f * 4096) prot false (pl.incref (f * 4096)) with
    | (.ok old, pl') => old = (leaf pl.phys r va).map Pte.addr ∧ r ∈ roots ∧
        Edit pl roots held (bump 0 f) (At r va) (old.elim pl' pl'.free) ∧
        leaf pl'.phys r va = some (Pte.make (f * 4096) (leafFlags prot false))
    | (.error _, pl') => Edit pl roots held (bump 0 f) Nowhere (pl'.free (f * 4096)) := by
  have he1 := retain_edit h hd h0
  have hmap := map_edit he1.good hs hva prot false
  cases hres : s.map va (f * 4096) prot false (pl.incref (f * 4096)) with
  | mk res pl' =>
    rw [hres] at hmap
    cases res with
    | error err => exact ((he1.trans hmap).mono (fun _ => le_rfl) fun _ _ hn =>
      hn.elim id id).release
    | ok old =>
      obtain ⟨hr, hold, he2, -, hleaf⟩ := hmap
      have hall := (he1.trans he2).mono (fun _ => le_rfl) fun _ _ hn =>
        hn.elim (fun hn => hn.elim) id
      have hsame : leaf (pl.incref (f * 4096)).phys r va = leaf pl.phys r va := rfl
      rw [hsame] at hold hall
      refine ⟨hold, hr, ?_, hleaf⟩
      subst hold
      cases hl : leaf pl.phys r va with
      | none =>
        rw [hl] at hall
        exact hall
      | some e =>
        have ⟨g, hg⟩ := leaf_present hl
        rw [hl] at hall
        exact hall.releaseLeaf hg

end Steps

end NixVm
