/-
Reference accounting for trees that share their leaves.

Several radix trees live in one store. A node may be referred to by a table entry, by being a root,
or by somebody outside the trees who `held` a reference to it, and a counter `rc` is kept for each
node. `Balanced` says that the counters are exact, and that a node used as a table is referred to
exactly once, so that no edit of one tree can be seen by another. Nodes that satisfy `pinned` are
exempt: their counter means nothing, and they are never tables.
-/
import NixVm.Lib.Radix

namespace Radix

open Finset Option

variable {E : Type} (ptr : E → Option Nat) (n : Nat)

/-- All references to `f`: from the trees at `roots`, and from outside. -/
def refs (c : Store E) (L : Nat) (roots : Finset Nat) (held : Nat → Nat) (f : Nat) : Nat :=
  ∑ r ∈ roots, total ptr n c (refW f) L r + held f

def bump (held : Nat → Nat) (x : Nat) : Nat → Nat :=
  fun f => held f + if x = f then 1 else 0

/-- `held` with one more reference to what `e` points at, if anything. -/
def bumpEntry (held : Nat → Nat) (e : E) : Nat → Nat :=
  fun f => held f + if ptr e = some f then 1 else 0

/-- The counters are exact, and every table is referred to once. -/
structure Balanced (c : Store E) (L : Nat) (roots : Finset Nat) (held rc : Nat → Nat)
    (pinned : Nat → Prop) : Prop where
  /-- A counter is the number of references. -/
  count : ∀ f, ¬ pinned f → rc f = refs ptr n c L roots held f
  /-- A table belongs to one place of one tree. -/
  single : ∀ r ∈ roots, ∀ f, 0 < total ptr n c (tabW f) L r →
    refs ptr n c L roots held f = 1 ∧ ¬ pinned f

/-- An entry whose node has nothing below it: a leaf, or an empty table. -/
def Bare (c : Store E) (L : Nat) (e : E) : Prop :=
  ∀ x, ptr e = some x → L = 0 ∨ ∀ i, i < n → ptr (c x i) = none

variable {ptr n} {c c' : Store E} {L : Nat} {roots : Finset Nat} {held rc rc' : Nat → Nat}
  {pinned pinned' : Nat → Prop}

@[simp] lemma bumpEntry_none {e : E} (h : ptr e = none) : bumpEntry ptr held e = held := by
  funext f
  simp [bumpEntry, h]

lemma bumpEntry_some {e : E} {x : Nat} (h : ptr e = some x) :
    bumpEntry ptr held e = bump held x := by
  funext f
  simp [bumpEntry, bump, h]

lemma bump_self_pos (held : Nat → Nat) (x : Nat) : 0 < bump held x x := by
  simp [bump]

lemma Bare.below_eq {w : Nat → Nat → Nat} {e : E} (h : Bare ptr n c L e) :
    below ptr n c w L e = (ptr e).elim 0 (w L) := by
  unfold below
  cases hx : ptr e with
  | none => rfl
  | some x =>
    rcases h x hx with rfl | hempty
    · rfl
    cases L with
    | zero => rfl
    | succ L =>
      simp only [elim_some]
      rw [total_succ, sum_eq_zero, add_zero]
      intro i hi
      simp only [below, hempty i (mem_range.mp hi), elim_none]

lemma Bare.below_ref {e : E} (h : Bare ptr n c L e) (f : Nat) :
    below ptr n c (refW f) L e = if ptr e = some f then 1 else 0 := by
  rw [h.below_eq]
  cases ptr e with
  | none => simp
  | some x => simp [refW]

lemma Bare.follow_eq {e : E} (h : Bare ptr n c L e) {p : List Nat} (hp : ∀ i ∈ p, i < n)
    (hne : p ≠ []) (hL : p.length ≤ L) : follow ptr c e p = none := by
  cases p with
  | nil => exact absurd rfl hne
  | cons i p =>
    simp only [follow]
    cases hx : ptr e with
    | none => rfl
    | some x =>
      have hpos : L ≠ 0 := by
        simp only [List.length_cons] at hL; omega
      have hi := (h x hx).resolve_left hpos i (hp i (by simp))
      simp only [bind_some]
      cases p with
      | nil => simp [hi]
      | cons j p => rw [look_cons (by simp), hi]; rfl

namespace Balanced

/-! ### What it says of a table -/

lemma tab_le_refs {r f : Nat} (hr : r ∈ roots) :
    total ptr n c (refW f) L r ≤ refs ptr n c L roots held f := by
  have hone : total ptr n c (refW f) L r ≤ ∑ s ∈ roots, total ptr n c (refW f) L s :=
    single_le_sum (f := fun s => total ptr n c (refW f) L s) (fun _ _ => Nat.zero_le _) hr
  unfold refs
  omega

section

variable (h : Balanced ptr n c L roots held rc pinned)
include h

lemma once {r f : Nat} (hr : r ∈ roots) (hf : 0 < total ptr n c (tabW f) L r) :
    total ptr n c (tabW f) L r = 1 ∧ total ptr n c (leafW f) L r = 0 ∧ held f = 0 ∧
      ∀ s ∈ roots, s ≠ r → total ptr n c (refW f) L s = 0 := by
  obtain ⟨hone, -⟩ := h.single r hr f hf
  unfold refs at hone
  rw [← add_sum_erase _ _ hr, total_ref] at hone
  refine ⟨by omega, by omega, by omega, fun s hs hne => ?_⟩
  have hzero : ∑ s ∈ roots.erase r, total ptr n c (refW f) L s = 0 := by omega
  exact (sum_eq_zero_iff.mp hzero) s (mem_erase.mpr ⟨hne, hs⟩)

lemma not_table_of_held {f : Nat}
    (hf : 0 < held f) : ∀ r ∈ roots, total ptr n c (tabW f) L r = 0 := by
  intro r hr
  rcases Nat.eq_zero_or_pos (total ptr n c (tabW f) L r) with h0 | hpos
  · exact h0
  obtain ⟨-, -, hheld, -⟩ := h.once hr hpos
  omega

lemma not_table_of_leaf {f s : Nat} (hs : s ∈ roots) (hf : 0 < total ptr n c (leafW f) L s) :
    ∀ r ∈ roots, total ptr n c (tabW f) L r = 0 := by
  intro r hr
  rcases Nat.eq_zero_or_pos (total ptr n c (tabW f) L r) with h0 | hpos
  · exact h0
  obtain ⟨-, hleaf, -, hother⟩ := h.once hr hpos
  by_cases hsr : s = r
  · subst hsr; omega
  have := hother s hs hsr
  rw [total_ref] at this
  omega

/-! ### The rules -/

lemma congr_store
    (hc : ∀ r ∈ roots, ∀ f, 0 < total ptr n c (tabW f) L r → ∀ i, i < n → c' f i = c f i) :
    Balanced ptr n c' L roots held rc pinned := by
  have htot (w : Nat → Nat → Nat) : ∀ r ∈ roots,
      total ptr n c' w L r = total ptr n c w L r := fun r hr => total_congr (hc r hr)
  have hrefs : ∀ f, refs ptr n c' L roots held f = refs ptr n c L roots held f := by
    intro f
    unfold refs
    rw [sum_congr rfl (htot (refW f))]
  refine ⟨fun f hf => ?_, fun r hr f hf => ?_⟩
  · rw [hrefs]; exact h.count f hf
  rw [htot _ r hr] at hf
  rw [hrefs]; exact h.single r hr f hf

lemma congr_ptr (hc : ∀ f i, i < n → ptr (c' f i) = ptr (c f i)) :
    Balanced ptr n c' L roots held rc pinned := by
  have hrefs : ∀ f, refs ptr n c' L roots held f = refs ptr n c L roots held f := by
    intro f
    unfold refs
    rw [sum_congr rfl fun r _ => total_congr_ptr hc L r]
  refine ⟨fun f hf => ?_, fun r hr f hf => ?_⟩
  · rw [hrefs]; exact h.count f hf
  rw [total_congr_ptr hc] at hf
  rw [hrefs]; exact h.single r hr f hf

lemma congr_held {held' : Nat → Nat}
    (hh : ∀ f, ¬ pinned f → held' f = held f) : Balanced ptr n c L roots held' rc pinned := by
  have hrefs : ∀ f, ¬ pinned f →
      refs ptr n c L roots held' f = refs ptr n c L roots held f := by
    intro f hf
    unfold refs
    rw [hh f hf]
  refine ⟨fun f hf => ?_, fun r hr f hf => ?_⟩
  · rw [hrefs f hf]; exact h.count f hf
  have ⟨hone, hp⟩ := h.single r hr f hf
  rw [hrefs f hp]; exact ⟨hone, hp⟩

end

lemma refs_bump (x f : Nat) : refs ptr n c L roots (bump held x) f
    = refs ptr n c L roots held f + if x = f then 1 else 0 := by
  simp only [refs, bump]
  omega

lemma take (h : Balanced ptr n c L roots held rc pinned) {x : Nat}
    (hx : ∀ r ∈ roots, total ptr n c (tabW x) L r = 0)
    (hother : ∀ f, f ≠ x → rc' f = rc f ∧ (pinned' f ↔ pinned f))
    (hself : ¬ pinned' x → ¬ pinned x ∧ rc' x = rc x + 1) :
    Balanced ptr n c L roots (bump held x) rc' pinned' := by
  refine ⟨fun f hf => ?_, fun r hr f hf => ?_⟩
  · rw [refs_bump]
    by_cases hfx : f = x
    · subst hfx
      have ⟨hp, hrc⟩ := hself hf
      rw [hrc, h.count f hp, if_pos rfl]
    · have ⟨hrc, hp⟩ := hother f hfx
      rw [hrc, h.count f (fun hc => hf (hp.mpr hc)), if_neg (Ne.symm hfx), add_zero]
  have hfx : f ≠ x := by
    rintro rfl
    have := hx r hr
    omega
  have ⟨hone, hp⟩ := h.single r hr f hf
  rw [refs_bump, if_neg (Ne.symm hfx), hone]
  exact ⟨rfl, fun hc => hp ((hother f hfx).2.mp hc)⟩

lemma give {x : Nat} (h : Balanced ptr n c L roots (bump held x) rc pinned)
    (hother : ∀ f, f ≠ x → rc' f = rc f) (hself : ¬ pinned x → rc' x = rc x - 1) :
    Balanced ptr n c L roots held rc' pinned := by
  refine ⟨fun f hf => ?_, fun r hr f hf => ?_⟩
  · have hcount := h.count f hf
    rw [refs_bump] at hcount
    by_cases hfx : f = x
    · subst hfx
      rw [if_pos rfl] at hcount
      rw [hself hf]
      omega
    · rw [if_neg (Ne.symm hfx), add_zero] at hcount
      rw [hother f hfx, hcount]
  have hfx : f ≠ x := by
    rintro rfl
    have := h.not_table_of_held (bump_self_pos held f) r hr
    omega
  have ⟨hone, hp⟩ := h.single r hr f hf
  rw [refs_bump, if_neg (Ne.symm hfx), add_zero] at hone
  exact ⟨hone, hp⟩

lemma insertRoot {x : Nat} (h : Balanced ptr n c (L + 1) roots (bump held x) rc pinned)
    (hx : x ∉ roots) (hone : rc x = 1) (hp : ¬ pinned x)
    (hempty : ∀ i, i < n → ptr (c x i) = none) :
    Balanced ptr n c (L + 1) (insert x roots) held rc pinned := by
  have htot (w : Nat → Nat → Nat) : total ptr n c w (L + 1) x = w (L + 1) x := by
    rw [total_succ, sum_eq_zero, add_zero]
    intro i hi
    simp only [below, hempty i (mem_range.mp hi), elim_none]
  have hrefs : ∀ f, refs ptr n c (L + 1) (insert x roots) held f
      = refs ptr n c (L + 1) roots (bump held x) f := by
    intro f
    simp only [refs, bump]
    rw [sum_insert hx, htot]
    simp only [refW]
    omega
  refine ⟨fun f hf => ?_, fun r hr f hf => ?_⟩
  · rw [hrefs]; exact h.count f hf
  rw [hrefs]
  rcases mem_insert.mp hr with rfl | hr'
  · rw [htot] at hf
    have hfr : r = f := by
      by_contra hne
      simp [tabW, hne] at hf
    subst hfr
    exact ⟨by rw [← h.count r hp, hone], hp⟩
  · exact h.single r hr' f hf

lemma eraseRoot (h : Balanced ptr n c L roots held rc pinned) {r : Nat} (hr : r ∈ roots) :
    Balanced ptr n c L (roots.erase r) (fun f => held f + total ptr n c (refW f) L r) rc
      pinned := by
  have hrefs : ∀ f, refs ptr n c L (roots.erase r)
      (fun f => held f + total ptr n c (refW f) L r) f = refs ptr n c L roots held f := by
    intro f
    simp only [refs]
    rw [← add_sum_erase _ _ hr]
    omega
  refine ⟨fun f hf => ?_, fun s hs f hf => ?_⟩
  · rw [hrefs]; exact h.count f hf
  · rw [hrefs]; exact h.single s (mem_of_mem_erase hs) f hf

/-- **Writing one slot.** A held reference goes in, and the one that was there comes out. -/
lemma link {q : List Nat} {e : E} {r t i : Nat}
    (h : Balanced ptr n c (q.length + (L + 1)) roots (bumpEntry ptr held e) rc pinned)
    (hr : r ∈ roots) (hw : Wrote n c c' t i e) (hi : i < n)
    (hq : ∀ j ∈ q, j < n) (hat : tableAt ptr c r q = some t)
    (hold : Bare ptr n c L (c t i)) (hnew : Bare ptr n c' L e)
    (htab : L ≠ 0 → ∀ x, ptr e = some x → rc x = 1 ∧ ¬ pinned x) :
    Balanced ptr n c' (q.length + (L + 1)) roots (bumpEntry ptr held (c t i)) rc pinned := by
  have hpos : 0 < total ptr n c (tabW t) (q.length + (L + 1)) r := tab_of_tableAt hq (by omega) hat
  obtain ⟨hone, -, -, hother⟩ := h.once hr hpos
  have htot (w : Nat → Nat → Nat) : total ptr n c' w (q.length + (L + 1)) r
      + below ptr n c w L (c t i)
      = total ptr n c w (q.length + (L + 1)) r + below ptr n c' w L e :=
    total_write hw hi hq hat hone
  have hrest (w : Nat → Nat → Nat) : ∀ s ∈ roots, s ≠ r →
      total ptr n c' w (q.length + (L + 1)) s = total ptr n c w (q.length + (L + 1)) s := by
    intro s hs hne
    refine total_congr (hw.agree ?_)
    have h0 := hother s hs hne
    rw [total_ref] at h0
    omega
  have hrefs : ∀ f, refs ptr n c' (q.length + (L + 1)) roots (bumpEntry ptr held (c t i)) f
      = refs ptr n c (q.length + (L + 1)) roots (bumpEntry ptr held e) f := by
    intro f
    have hr' := htot (refW f)
    rw [hold.below_ref, hnew.below_ref] at hr'
    have hsum : ∑ s ∈ roots.erase r, total ptr n c' (refW f) (q.length + (L + 1)) s
        = ∑ s ∈ roots.erase r, total ptr n c (refW f) (q.length + (L + 1)) s :=
      sum_congr rfl fun s hs => hrest (refW f) s (mem_of_mem_erase hs) (ne_of_mem_erase hs)
    have hsplit (d : Store E) : ∑ s ∈ roots, total ptr n d (refW f) (q.length + (L + 1)) s
        = total ptr n d (refW f) (q.length + (L + 1)) r
          + ∑ s ∈ roots.erase r, total ptr n d (refW f) (q.length + (L + 1)) s :=
      (add_sum_erase _ _ hr).symm
    simp only [refs, bumpEntry, hsplit, hsum]
    omega
  refine ⟨fun f hf => ?_, fun s hs f hf => ?_⟩
  · rw [hrefs]; exact h.count f hf
  rw [hrefs]
  by_cases hsr : s = r
  · subst hsr
    have ht := htot (tabW f)
    rcases Nat.eq_zero_or_pos (total ptr n c (tabW f) (q.length + (L + 1)) s) with h0 | hp
    · -- a table that was not there before is the one the new entry points at
      have hb : 0 < below ptr n c' (tabW f) L e := by omega
      rw [hnew.below_eq] at hb
      cases hx : ptr e with
      | none => simp [hx] at hb
      | some x =>
        rw [hx] at hb
        simp only [elim_some, tabW] at hb
        have hxf : L ≠ 0 ∧ x = f := by
          by_contra hne
          simp [hne] at hb
        obtain ⟨hL, rfl⟩ := hxf
        obtain ⟨hrc, hnp⟩ := htab hL x hx
        exact ⟨by rw [← h.count x hnp, hrc], hnp⟩
    · exact h.single s hs f hp
  · rw [hrest _ s hs hsr] at hf
    exact h.single s hs f hf

end Balanced

end Radix
