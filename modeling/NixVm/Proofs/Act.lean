/-
Pages, ranges and spaces: which pages a range covers, what a call on a page does to the tree, and
what `map` and `unmap` are once past their checks.
-/
import NixVm.Proofs.Control
import NixVm.Vcpu.System

namespace NixVm

open Finset Radix GuestMemory

variable {addr len : Nat}

/-! ### Pages and ranges -/

lemma mem_pagesOf {r : Nat × Nat} {p : Nat} : p ∈ pagesOf r ↔ r.1 ≤ p ∧ p ≤ r.2 := by
  rw [pagesOf, List.mem_range'_1]
  omega

/-- A page index is found for the addresses of the extent only. -/
lemma pageIndex_eq {g : GuestMemory} {addr p : Nat} (h : g.pageIndex addr = some p) :
    g.base ≤ addr ∧ addr < g.limit ∧ p = (addr - g.base) / 4096 := by
  unfold pageIndex at h
  split at h
  · simp at h
  simp only [Option.some.injEq] at h
  omega

lemma pageIndex_lt {g : GuestMemory} (hsize : g.size % 4096 = 0) {addr p : Nat}
    (h : g.pageIndex addr = some p) : p < g.npages := by
  obtain ⟨hlo, hhi, rfl⟩ := pageIndex_eq h
  have hlim : g.limit ≤ g.base + g.size := Nat.mod_le ..
  rw [npages]
  omega

/-- A range is accepted with the pages of its first and of its last byte. -/
lemma pageRange_eq {g : GuestMemory} {r : Nat × Nat} (h : g.pageRange addr len = .ok r) :
    g.pageIndex addr = some r.1 ∧ g.pageIndex (addr + (len - 1)) = some r.2 := by
  unfold pageRange at h
  split at h
  next h0 =>
    split at h
    · simp at h
    rename_i p hp
    simp only [Except.ok.injEq] at h
    subst h
    simpa [h0] using hp
  dsimp only at h
  split at h
  · simp at h
  split at h
  · simp at h
  · simp at h
  rename_i h1 h2
  simp only [Except.ok.injEq] at h
  subst h
  exact ⟨h1, h2⟩

/-- An accepted range has pages of the extent only. -/
lemma pageRange_lt {g : GuestMemory} (hsize : g.size % 4096 = 0) {addr len : Nat} {r : Nat × Nat}
    (h : g.pageRange addr len = .ok r) : ∀ p ∈ pagesOf r, p < g.npages := by
  intro p hp
  have := pageIndex_lt hsize (pageRange_eq h).2
  have := (mem_pagesOf.mp hp).2
  omega

lemma pageSpan_lt {g : GuestMemory} (hsize : g.size % 4096 = 0) {addr len : Nat} {r : Nat × Nat}
    (h : g.pageSpan addr len = .ok r) : ∀ p ∈ pagesOf r, p < g.npages :=
  pageRange_lt hsize h

lemma pageBase_mod {g : GuestMemory} (hbase : g.base % 4096 = 0) (p : Nat) :
    g.pageBase p % 4096 = 0 := by
  rw [pageBase]
  omega

/-- The fields a call on pages cannot change. -/
structure SameSpace (g g' : GuestMemory) : Prop where
  base : g'.base = g.base
  size : g'.size = g.size
  space : g'.space = g.space

lemma SameSpace.refl (g : GuestMemory) : SameSpace g g := ⟨rfl, rfl, rfl⟩

lemma SameSpace.trans {g g' g'' : GuestMemory} (h : SameSpace g g') (h' : SameSpace g' g'') :
    SameSpace g g'' :=
  ⟨h'.base.trans h.base, h'.size.trans h.size, h'.space.trans h.space⟩

lemma SameSpace.pageBase {g g' : GuestMemory} (h : SameSpace g g') (p : Nat) :
    g'.pageBase p = g.pageBase p := by
  rw [GuestMemory.pageBase, GuestMemory.pageBase, h.base]

lemma SameSpace.pageIndex {g g' : GuestMemory} (h : SameSpace g g') (addr : Nat) :
    g'.pageIndex addr = g.pageIndex addr := by
  unfold GuestMemory.pageIndex GuestMemory.limit
  rw [h.base, h.size]

lemma SameSpace.pageRange {g g' : GuestMemory} (h : SameSpace g g') (addr len : Nat) :
    g'.pageRange addr len = g.pageRange addr len := by
  simp only [GuestMemory.pageRange, h.pageIndex]

lemma SameSpace.pageSpan {g g' : GuestMemory} (h : SameSpace g g') (addr len : Nat) :
    g'.pageSpan addr len = g.pageSpan addr len := h.pageRange ..

/-- The places of the tree with root `r` that translate pages of the extent. -/
def AtExtent (g : GuestMemory) (r : Nat) : Nat → Nat → Prop :=
  fun s vb => s = r ∧ ∃ p < g.npages, path vb = path (g.pageBase p)

lemma atExtent_of_page {g : GuestMemory} {r p : Nat} (hp : p < g.npages) (s vb : Nat)
    (h : At r (g.pageBase p) s vb) : AtExtent g r s vb := ⟨h.1, p, hp, h.2⟩

section Moves

variable {pl : Pool} {roots : Finset Nat} {held : Nat → Nat} {r : Nat} {g : GuestMemory}

section

variable (h : Good pl roots held) (hs : Rooted roots g.space r)
include h hs

/-- Dropping a page edits the tree at that page only, and leaves no translation for it. -/
lemma dropPage_spec (p : Nat) : Edit pl roots held 0 (At r (g.pageBase p)) (g.dropPage p pl).2 ∧
      (g.mapped p = true → leaf (g.dropPage p pl).2.phys r (g.pageBase p) = none) ∧
      (g.mapped p = false → g.dropPage p pl = (false, pl)) := by
  unfold dropPage
  cases hm : g.mapped p with
  | false =>
    rw [if_neg (by simp)]
    exact ⟨Edit.refl h, by simp, fun _ => rfl⟩
  | true =>
    rw [if_pos rfl]
    obtain ⟨-, he, hl⟩ := dropLeaf_spec h hs (g.pageBase p)
    exact ⟨he, fun _ => hl, by simp⟩

/-- Backing a page edits the tree at that page only. -/
lemma ensureBacked_edit
    (hb : g.base % 4096 = 0) (prot : Prot) (p : Nat) : Edit pl roots held 0 (At r (g.pageBase p))
      (ensureBacked g.space prot pl (g.pageBase p)).2 := by
  have hspec := ensureBacked_spec h hs (pageBase_mod hb p) prot
  cases hres : ensureBacked g.space prot pl (g.pageBase p) with
  | mk ok pl' =>
    rw [hres] at hspec
    cases ok with
    | true => exact hspec.1
    | false => exact hspec.1.mono (fun _ => le_rfl) fun _ _ hn => hn.elim

/-- So does making it writable, with or without a copy. -/
lemma makeWritable_edit (hb : g.base % 4096 = 0) (prot : Prot) (p : Nat) (sharedAnon : Bool) :
    Edit pl roots held 0 (At r (g.pageBase p))
      (makeWritable g.space prot pl (g.pageBase p) sharedAnon).2 := by
  have hspec := makeWritable_spec h hs (pageBase_mod hb p) prot sharedAnon
  cases hres : makeWritable g.space prot pl (g.pageBase p) sharedAnon with
  | mk res pl' =>
    rw [hres] at hspec
    cases res with
    | ok changed => exact hspec.2.1
    | error e => exact hspec.2.mono (fun _ => le_rfl) fun _ _ hn => hn.elim

end

end Moves

section Calls

variable {g : GuestMemory} {pl : Pool}

@[simp] lemma PageVec.set_self {α : Type} (v : PageVec α) (p : Nat) (x : α) :
    v.set p x p = x := if_pos rfl

lemma PageVec.set_other {α : Type} (v : PageVec α) {p q : Nat} (h : q ≠ p) (x : α) :
    v.set p x q = v q := if_neg h

/-- A page mapped by the loop, or mapped so before it, ends with the protection asked for. -/
lemma foldl_mapPage_pages (prot : Prot) (ps : List Nat) :
    ∀ {g : GuestMemory} {pl : Pool} {p : Nat}, (p ∈ ps ∨ g.mapped p = true ∧ g.prot p = prot) →
      (ps.foldl (mapPage prot) (g, pl)).1.mapped p = true ∧
      (ps.foldl (mapPage prot) (g, pl)).1.prot p = prot := by
  induction ps with
  | nil => intro g pl p hp; simpa using hp
  | cons q ps ih =>
    intro g pl p hp
    refine @ih (mapPage prot (g, pl) q).1 (mapPage prot (g, pl) q).2 p ?_
    by_cases hpq : p = q
    · subst hpq
      exact .inr ⟨PageVec.set_self .., PageVec.set_self ..⟩
    rcases hp with hp | hp
    · exact .inl ((List.mem_cons.mp hp).resolve_left hpq)
    exact .inr ⟨(PageVec.set_other _ hpq _).trans hp.1, (PageVec.set_other _ hpq _).trans hp.2⟩

/-- `map` past its checks: page by page, and the locks of the range are gone. -/
lemma map_ok {prot : Prot} {r : Nat × Nat} (hlen : len ≠ 0) (hspan : g.pageSpan addr len = .ok r) :
    g.map addr len prot pl = (.ok (),
      { ((GuestMemory.pagesOf r).foldl (GuestMemory.mapPage prot) (g, pl)).1 with
        locks := ((GuestMemory.pagesOf r).foldl (GuestMemory.mapPage prot)
          (g, pl)).1.locks.remove r.1 (r.2 + 1) },
      ((GuestMemory.pagesOf r).foldl (GuestMemory.mapPage prot) (g, pl)).2) := by
  unfold GuestMemory.map
  rw [if_neg hlen]
  simp only [hspan]

/-- `unmap` past its checks, in the same way. -/
lemma unmap_ok {r : Nat × Nat} (hlen : len ≠ 0) (hspan : g.pageSpan addr len = .ok r) :
    g.unmap addr len pl = (.ok (), { ((pagesOf r).foldl unmapPage (g, pl)).1 with
        locks := ((pagesOf r).foldl unmapPage
          (g, pl)).1.locks.remove r.1 (r.2 + 1) },
      ((pagesOf r).foldl unmapPage (g, pl)).2) := by
  unfold unmap
  rw [if_neg hlen]
  simp only [hspan]

lemma map_pages {prot : Prot} {r : Nat × Nat} (hlen : len ≠ 0)
    (hspan : g.pageSpan addr len = .ok r) {p : Nat} (hp : p ∈ pagesOf r) :
    (g.map addr len prot pl).2.1.mapped p = true ∧ (g.map addr len prot pl).2.1.prot p = prot := by
  rw [map_ok hlen hspan]
  exact foldl_mapPage_pages prot _ (.inl hp)

end Calls

namespace Sys

/-! ### Runs given by their operations -/

lemma reach_of_steps (can : Sys → Op → Prop) (ops : List Op) :
    ∀ {s s' : Sys}, (∀ op ∈ ops, ∀ s, can s op) → steps ops s = some s' →
      Relation.ReflTransGen (Next can) s s' := by
  induction ops with
  | nil =>
    intro s s' _ h
    cases h
    exact .refl
  | cons op ops ih =>
    intro s s' hcan h
    unfold steps at h
    split at h
    next s1 hs =>
      have hfirst : Next can s s1 := ⟨op, true, hcan op List.mem_cons_self s, hs⟩
      exact .head hfirst (ih (fun op hop => hcan op (List.mem_cons_of_mem _ hop)) h)
    · cases h

lemma exists_of_steps (o : Option Sys) (ops : List Op) {P : Sys → Prop} [DecidablePred P]
    (h : (o.bind (steps ops)).any (fun s => decide (P s)) = true) :
    ∃ s0 s, o = some s0 ∧ steps ops s0 = some s ∧ P s := by
  cases o with
  | none => cases h
  | some s0 =>
    simp only [Option.bind_some] at h
    cases hs : steps ops s0 with
    | none =>
      rw [hs] at h
      cases h
    | some s =>
      rw [hs] at h
      exact ⟨s0, s, rfl, hs, of_decide_eq_true h⟩

end Sys

end NixVm
