/-
Radix trees stored as tables of pointers.

A store holds tables; slot `i` of table `t` is `c t i`, and `ptr` says which node an entry points
at, if any. A node at level 0 is a leaf; a node at level `L + 1` is a table whose entries point at
nodes of level `L`.

`look` follows one path of slot numbers down to the entry it ends at. `total` adds up a weight over
every node, and with the three weights below it counts how often a node is referred to at all, as a
table, and as a leaf.

The single fact about change is `total_write` with its companion for `look`: writing one slot of a
table that occurs once in the tree replaces what hangs below that slot and nothing else.
-/
import Mathlib

namespace Radix

open Finset Option

variable {E : Type} (ptr : E → Option Nat) (n : Nat)

abbrev Store (E : Type) := Nat → Nat → E

/-- The table a path of slot numbers leads to from `t`. -/
def tableAt (c : Store E) : Nat → List Nat → Option Nat
  | t, [] => some t
  | t, i :: p => (ptr (c t i)).bind fun x => tableAt c x p

/-- The present entry a path of slot numbers ends at. -/
def look (c : Store E) : Nat → List Nat → Option E
  | _, [] => none
  | t, [i] => if (ptr (c t i)).isSome then some (c t i) else none
  | t, i :: j :: p => (ptr (c t i)).bind fun x => look c x (j :: p)

/-- The present entry a path ends at when it starts at the entry `e`. -/
def follow (c : Store E) (e : E) : List Nat → Option E
  | [] => if (ptr e).isSome then some e else none
  | i :: p => (ptr e).bind fun x => look ptr c x (i :: p)

/-- The sum of the weight `w` over a node of level `L` and everything below it. -/
def total (c : Store E) (w : Nat → Nat → Nat) : Nat → Nat → Nat
  | 0, t => w 0 t
  | L + 1, t => w (L + 1) t + ∑ i ∈ range n, (ptr (c t i)).elim 0 (total c w L)

/-- The sum of the weight over what an entry refers to, a node of level `L`. -/
def below (c : Store E) (w : Nat → Nat → Nat) (L : Nat) (e : E) : Nat :=
  (ptr e).elim 0 (total ptr n c w L)

def refW (f : Nat) : Nat → Nat → Nat := fun _ t => if t = f then 1 else 0

def tabW (f : Nat) : Nat → Nat → Nat := fun L t => if L ≠ 0 ∧ t = f then 1 else 0

/-- One for every time node `f` is referred to as a leaf. -/
def leafW (f : Nat) : Nat → Nat → Nat := fun L t => if L = 0 ∧ t = f then 1 else 0

variable {ptr n} {c c' : Store E} {w : Nat → Nat → Nat}

/-! ### Unfolding -/

@[simp] lemma tableAt_nil (t : Nat) : tableAt ptr c t [] = some t := rfl

@[simp] lemma tableAt_cons (t i : Nat) (p : List Nat) :
    tableAt ptr c t (i :: p) = (ptr (c t i)).bind fun x => tableAt ptr c x p := rfl

@[simp] lemma look_nil (t : Nat) : look ptr c t [] = none := rfl

variable {p q : List Nat} {r t i L f : Nat} {e : E}

lemma look_cons (hp : p ≠ []) (t i : Nat) :
    look ptr c t (i :: p) = (ptr (c t i)).bind fun x => look ptr c x p := by
  cases p with
  | nil => exact absurd rfl hp
  | cons j p => rfl

@[simp] lemma look_single (t i : Nat) :
    look ptr c t [i] = if (ptr (c t i)).isSome then some (c t i) else none := rfl

lemma look_eq_follow (t i : Nat) (p : List Nat) :
    look ptr c t (i :: p) = follow ptr c (c t i) p := by
  cases p <;> rfl

lemma tableAt_eq_look (hp : p ≠ []) (t : Nat) : tableAt ptr c t p = (look ptr c t p).bind ptr := by
  induction p generalizing t with
  | nil => exact absurd rfl hp
  | cons i p ih =>
    cases p with
    | nil => cases hx : ptr (c t i) <;> simp [hx]
    | cons j p =>
      rw [tableAt_cons, look_cons (by simp)]
      cases ptr (c t i) with
      | none => rfl
      | some x => exact ih (by simp) x

@[simp] lemma total_zero (t : Nat) : total ptr n c w 0 t = w 0 t := rfl

lemma total_succ (L t : Nat) :
    total ptr n c w (L + 1) t = w (L + 1) t + ∑ i ∈ range n, below ptr n c w L (c t i) := rfl

lemma tableAt_append (p q : List Nat) (t : Nat) :
    tableAt ptr c t (p ++ q) = (tableAt ptr c t p).bind fun x => tableAt ptr c x q := by
  induction p generalizing t with
  | nil => rfl
  | cons i p ih =>
    simp only [List.cons_append, tableAt_cons]
    cases ptr (c t i) with
    | none => rfl
    | some x => exact ih x

lemma tableAt_concat (ht : tableAt ptr c r q = some t) (hf : ptr (c t i) = some f) :
    tableAt ptr c r (q ++ [i]) = some f := by
  rw [tableAt_append, ht]
  simp [hf]

lemma bounded_concat (hq : ∀ j ∈ q, j < n) (hi : i < n) : ∀ j ∈ q ++ [i], j < n := by
  intro j hj
  rcases List.mem_append.mp hj with hj | hj
  · exact hq j hj
  rw [List.mem_singleton.mp hj]
  exact hi

lemma look_append_single (p : List Nat) (t i : Nat) :
    look ptr c t (p ++ [i]) = (tableAt ptr c t p).bind fun x =>
      if (ptr (c x i)).isSome then some (c x i) else none := by
  induction p generalizing t with
  | nil => rfl
  | cons j p ih =>
    rw [List.cons_append, look_cons (by simp), tableAt_cons]
    cases ptr (c t j) with
    | none => rfl
    | some x => exact ih x

lemma look_eq_none_of_absent (hat : tableAt ptr c r q = some t)
    (hi : ptr (c t i) = none) (hp : q ++ [i] <+: p) : look ptr c r p = none := by
  obtain ⟨rest, rfl⟩ := hp
  induction q generalizing r with
  | nil =>
    simp only [tableAt_nil, Option.some.injEq] at hat
    subst hat
    cases rest with
    | nil => simp [hi]
    | cons j rest =>
      simp only [List.nil_append, List.cons_append]
      rw [look_cons (by simp), hi]
      rfl
  | cons k q ih =>
    obtain ⟨x, hx, hrest⟩ := bind_eq_some_iff.mp hat
    simp only [List.cons_append, List.append_assoc] at ih ⊢
    rw [look_cons (by simp), hx]
    exact ih hrest

/-! ### The weights -/

lemma refW_eq (f L t : Nat) : refW f L t = tabW f L t + leafW f L t := by
  by_cases hL : L = 0 <;> simp [refW, tabW, leafW, hL]

lemma total_ref (f L t : Nat) : total ptr n c (refW f) L t
    = total ptr n c (tabW f) L t + total ptr n c (leafW f) L t := by
  induction L generalizing t with
  | zero => exact refW_eq f 0 t
  | succ L ih =>
    have hsum : ∑ i ∈ range n, below ptr n c (refW f) L (c t i)
        = ∑ i ∈ range n, below ptr n c (tabW f) L (c t i)
          + ∑ i ∈ range n, below ptr n c (leafW f) L (c t i) := by
      rw [← sum_add_distrib]
      refine sum_congr rfl fun i _ => ?_
      unfold below
      cases ptr (c t i) with
      | none => rfl
      | some x => exact ih x
    rw [total_succ, total_succ, total_succ, hsum, refW_eq]
    omega

lemma tab_self (L t : Nat) : 0 < total ptr n c (tabW t) (L + 1) t := by
  rw [total_succ]
  simp [tabW]

lemma below_le_total (L t : Nat) (hi : i < n) :
    below ptr n c w L (c t i) ≤ total ptr n c w (L + 1) t := by
  rw [total_succ]
  have hone : below ptr n c w L (c t i) ≤ ∑ j ∈ range n, below ptr n c w L (c t j) :=
    single_le_sum (f := fun j => below ptr n c w L (c t j)) (fun _ _ => Nat.zero_le _)
      (mem_range.mpr hi)
  omega

lemma total_le_of_tableAt {x : Nat} (L : Nat) (hp : ∀ i ∈ p, i < n)
    (h : tableAt ptr c t p = some x) : total ptr n c w L x ≤ total ptr n c w (p.length + L) t := by
  induction p generalizing t with
  | nil =>
    simp only [tableAt_nil, Option.some.injEq] at h
    subst h
    simp
  | cons i p ih =>
    obtain ⟨y, hy, hrest⟩ := bind_eq_some_iff.mp h
    have hle : below ptr n c w (p.length + L) (c t i) ≤ _ :=
      below_le_total (p.length + L) t (hp i (by simp))
    simp only [below, hy, elim_some] at hle
    have hih := ih (fun j hj => hp j (by simp [hj])) hrest
    rw [List.length_cons, Nat.add_right_comm]
    omega

lemma tab_of_tableAt (hp : ∀ i ∈ p, i < n) (hL : p.length < L)
    (h : tableAt ptr c t p = some f) : 0 < total ptr n c (tabW f) L t := by
  obtain ⟨k, rfl⟩ : ∃ k, L = p.length + (k + 1) := ⟨L - p.length - 1, by omega⟩
  exact lt_of_lt_of_le (tab_self k f) (total_le_of_tableAt (k + 1) hp h)

lemma tableAt_of_look (h : look ptr c t p = some e) (he : ptr e = some f) :
    tableAt ptr c t p = some f := by
  have hne : p ≠ [] := by
    rintro rfl
    simp at h
  rw [tableAt_eq_look hne, h]
  exact he

lemma ref_of_look (hp : ∀ i ∈ p, i < n)
    (hL : p.length ≤ L) (h : look ptr c t p = some e) (he : ptr e = some f) :
    0 < total ptr n c (refW f) L t := by
  obtain ⟨k, rfl⟩ : ∃ k, L = p.length + k := ⟨L - p.length, by omega⟩
  have hself : 0 < total ptr n c (refW f) k f := by
    cases k <;> simp [total, refW]
  exact lt_of_lt_of_le hself (total_le_of_tableAt k hp (tableAt_of_look h he))

lemma leaf_of_look (hp : ∀ i ∈ p, i < n)
    (hL : p.length = L) (h : look ptr c t p = some e) (he : ptr e = some f) :
    0 < total ptr n c (leafW f) L t := by
  have hself : 0 < total ptr n c (leafW f) 0 f := by simp [total, leafW]
  have hle := total_le_of_tableAt (w := leafW f) 0 hp (tableAt_of_look h he)
  rw [add_zero, hL] at hle
  exact lt_of_lt_of_le hself hle

/-! ### A tree reads only its own tables -/

lemma total_congr (h : ∀ f, 0 < total ptr n c (tabW f) L t →
    ∀ i, i < n → c' f i = c f i) : total ptr n c' w L t = total ptr n c w L t := by
  induction L generalizing t with
  | zero => rfl
  | succ L ih =>
    rw [total_succ, total_succ]
    congr 1
    refine sum_congr rfl fun i hi => ?_
    have hi' : i < n := mem_range.mp hi
    rw [h t (tab_self L t) i hi']
    unfold below
    cases hx : ptr (c t i) with
    | none => rfl
    | some x =>
      refine ih fun f hf => h f ?_
      have hle : below ptr n c (tabW f) L (c t i) ≤ _ := below_le_total L t hi'
      simp only [below, hx, elim_some] at hle
      omega

lemma total_congr_ptr (h : ∀ f i, i < n → ptr (c' f i) = ptr (c f i)) (L t : Nat) :
    total ptr n c' w L t = total ptr n c w L t := by
  induction L generalizing t with
  | zero => rfl
  | succ L ih =>
    rw [total_succ, total_succ]
    congr 1
    refine sum_congr rfl fun i hi => ?_
    unfold below
    rw [h t i (mem_range.mp hi)]
    cases ptr (c t i) with
    | none => rfl
    | some x => exact ih x

lemma look_congr (h : ∀ f, 0 < total ptr n c (tabW f) L t →
    ∀ i, i < n → c' f i = c f i) (hp : ∀ i ∈ p, i < n) (hL : p.length ≤ L) :
    look ptr c' t p = look ptr c t p := by
  induction p generalizing L t with
  | nil => rfl
  | cons i p ih =>
    obtain ⟨L, rfl⟩ : ∃ k, L = k + 1 := ⟨L - 1, by simp at hL; omega⟩
    have hi : i < n := hp i (by simp)
    have hcell := h t (tab_self L t) i hi
    cases p with
    | nil => rw [look_single, look_single, hcell]
    | cons j p =>
      rw [look_cons (by simp), look_cons (by simp), hcell]
      cases hx : ptr (c t i) with
      | none => rfl
      | some x =>
        refine ih (L := L) (fun f hf => h f ?_) (fun k hk => hp k (by simp [hk]))
          (by simpa using hL)
        have hle : below ptr n c (tabW f) L (c t i) ≤ _ := below_le_total L t hi
        simp only [below, hx, elim_some] at hle
        omega

lemma tableAt_congr (h : ∀ f, 0 < total ptr n c (tabW f) L t →
    ∀ i, i < n → c' f i = c f i) (hp : ∀ i ∈ p, i < n) (hL : p.length ≤ L) :
    tableAt ptr c' t p = tableAt ptr c t p := by
  by_cases hne : p = []
  · subst hne
    rfl
  · rw [tableAt_eq_look hne, tableAt_eq_look hne, look_congr h hp hL]

/-! ### Writing one slot -/

def Wrote (n : Nat) (c c' : Store E) (t i : Nat) (e : E) : Prop :=
  ∀ f j, j < n → c' f j = if f = t ∧ j = i then e else c f j

namespace Wrote

variable {t i : Nat} {e : E}

lemma same (h : Wrote n c c' t i e) (hi : i < n) : c' t i = e := by
  rw [h t i hi, if_pos ⟨rfl, rfl⟩]

lemma other (h : Wrote n c c' t i e) {f j : Nat} (hj : j < n) (hne : f ≠ t ∨ j ≠ i) :
    c' f j = c f j := by
  rw [h f j hj, if_neg]
  rintro ⟨rfl, rfl⟩
  simp at hne

lemma agree (h : Wrote n c c' t i e) {L r : Nat} (h0 : total ptr n c (tabW t) L r = 0) :
    ∀ f, 0 < total ptr n c (tabW f) L r → ∀ j, j < n → c' f j = c f j := by
  intro f hf j hj
  refine h.other hj (.inl ?_)
  rintro rfl
  omega

end Wrote

lemma sum_split {g : Nat → Nat} {j : Nat} (hj : j < n) :
    ∑ i ∈ range n, g i = g j + ∑ i ∈ (range n).erase j, g i :=
  (add_sum_erase _ g (mem_range.mpr hj)).symm

lemma once_root (hone : total ptr n c (tabW t) (L + 1) t = 1) {j : Nat}
    (hj : j < n) : below ptr n c (tabW t) L (c t j) = 0 := by
  rw [total_succ] at hone
  have hself : tabW t (L + 1) t = 1 := by simp [tabW]
  have hzero : ∑ j ∈ range n, below ptr n c (tabW t) L (c t j) = 0 := by omega
  exact (sum_eq_zero_iff.mp hzero) j (mem_range.mpr hj)

/-- A table that occurs once, on a path through slot `k`, occurs below that slot only. -/
lemma once_below {x k : Nat} (hk : k < n)
    (hq : ∀ j ∈ q, j < n) (hx : ptr (c r k) = some x) (hat : tableAt ptr c x q = some t)
    (hone : total ptr n c (tabW t) (q.length + (L + 1) + 1) r = 1) :
    r ≠ t ∧ total ptr n c (tabW t) (q.length + (L + 1)) x = 1 ∧
      ∀ j, j < n → j ≠ k → below ptr n c (tabW t) (q.length + (L + 1)) (c r j) = 0 := by
  have hpos : 0 < total ptr n c (tabW t) (q.length + (L + 1)) x := tab_of_tableAt hq (by omega) hat
  rw [total_succ, sum_split hk] at hone
  have hbk : below ptr n c (tabW t) (q.length + (L + 1)) (c r k)
      = total ptr n c (tabW t) (q.length + (L + 1)) x := by
    simp only [below, hx, elim_some]
  rw [hbk] at hone
  refine ⟨?_, by omega, ?_⟩
  · rintro rfl
    have : tabW r (q.length + (L + 1) + 1) r = 1 := by simp [tabW]
    omega
  intro j hj hne
  have hzero : ∑ j ∈ (range n).erase k,
      below ptr n c (tabW t) (q.length + (L + 1)) (c r j) = 0 := by omega
  exact (sum_eq_zero_iff.mp hzero) j (mem_erase.mpr ⟨hne, mem_range.mpr hj⟩)

section

variable (h : Wrote n c c' t i e)
include h

lemma below_congr {d : E}
    (h0 : below ptr n c (tabW t) L d = 0) : below ptr n c' w L d = below ptr n c w L d := by
  unfold below at h0 ⊢
  cases hx : ptr d with
  | none => rfl
  | some x =>
    rw [hx] at h0
    exact total_congr (h.agree h0)

lemma follow_congr {d : E} (h0 : below ptr n c (tabW t) L d = 0) (hp : ∀ j ∈ p, j < n)
    (hL : p.length ≤ L) : follow ptr c' d p = follow ptr c d p := by
  cases p with
  | nil => rfl
  | cons j p =>
    unfold below at h0
    simp only [follow]
    cases hx : ptr d with
    | none => rfl
    | some x =>
      rw [hx] at h0
      exact look_congr (h.agree h0) hp hL

/-- **Writing one slot** of a table that occurs once, at the end of `q`, replaces the weight below
it. -/
lemma total_write
    (hi : i < n) (hq : ∀ j ∈ q, j < n) (hat : tableAt ptr c r q = some t)
    (hone : total ptr n c (tabW t) (q.length + (L + 1)) r = 1) :
    total ptr n c' w (q.length + (L + 1)) r + below ptr n c w L (c t i)
      = total ptr n c w (q.length + (L + 1)) r + below ptr n c' w L e := by
  induction q generalizing r with
  | nil =>
    simp only [tableAt_nil, Option.some.injEq] at hat
    subst hat
    simp only [List.length_nil, zero_add] at hone ⊢
    have hrest : ∑ j ∈ (range n).erase i, below ptr n c' w L (c' r j)
        = ∑ j ∈ (range n).erase i, below ptr n c w L (c r j) := by
      refine sum_congr rfl fun j hj => ?_
      obtain ⟨hne, hmem⟩ := mem_erase.mp hj
      rw [h.other (mem_range.mp hmem) (.inr hne)]
      exact below_congr h (once_root hone (mem_range.mp hmem))
    rw [total_succ, total_succ, sum_split hi, sum_split hi, hrest, h.same hi]
    omega
  | cons k q ih =>
    obtain ⟨x, hx, hrest⟩ := bind_eq_some_iff.mp hat
    have hk : k < n := hq k (by simp)
    have hq' : ∀ j ∈ q, j < n := fun j hj => hq j (by simp [hj])
    have hlen : (k :: q).length + (L + 1) = (q.length + (L + 1)) + 1 := by
      simp only [List.length_cons]; omega
    rw [hlen] at hone ⊢
    obtain ⟨hroot, hone', hzero⟩ := once_below hk hq' hx hrest hone
    have hih := ih hq' hrest hone'
    have hothers : ∑ j ∈ (range n).erase k, below ptr n c' w (q.length + (L + 1)) (c' r j)
        = ∑ j ∈ (range n).erase k, below ptr n c w (q.length + (L + 1)) (c r j) := by
      refine sum_congr rfl fun j hj => ?_
      obtain ⟨hne, hmem⟩ := mem_erase.mp hj
      rw [h.other (mem_range.mp hmem) (.inl hroot)]
      exact below_congr h (hzero j (mem_range.mp hmem) hne)
    have hslot (d : Store E) : below ptr n d w (q.length + (L + 1)) (c r k)
        = total ptr n d w (q.length + (L + 1)) x := by
      simp only [below, hx, elim_some]
    rw [total_succ, total_succ, sum_split hk, sum_split hk, hothers,
      h.other hk (.inl hroot), hslot, hslot]
    omega

/-- Only paths through the written slot are affected, and they continue from the new entry. -/
lemma look_write
    (hi : i < n) (hq : ∀ j ∈ q, j < n) (hat : tableAt ptr c r q = some t)
    (hone : total ptr n c (tabW t) (q.length + (L + 1)) r = 1)
    (hp : ∀ j ∈ p, j < n) (hL : p.length ≤ q.length + (L + 1)) :
    look ptr c' r p = if q ++ [i] <+: p then follow ptr c' e (p.drop (q.length + 1))
      else look ptr c r p := by
  induction q generalizing r p with
  | nil =>
    simp only [tableAt_nil, Option.some.injEq] at hat
    subst hat
    cases p with
    | nil => simp
    | cons k p =>
      have hk : k < n := hp k (by simp)
      by_cases hki : k = i
      · subst hki
        rw [if_pos (by simp), look_eq_follow, h.same hi]
        simp
      rw [if_neg (by simp [Ne.symm hki]), look_eq_follow, look_eq_follow, h.other hk (.inr hki)]
      exact follow_congr h (once_root hone hk) (fun l hl => hp l (by simp [hl]))
        (by simpa using hL)
  | cons k q ih =>
    obtain ⟨x, hx, hrest⟩ := bind_eq_some_iff.mp hat
    have hk : k < n := hq k (by simp)
    have hq' : ∀ j ∈ q, j < n := fun j hj => hq j (by simp [hj])
    have hlen : (k :: q).length + (L + 1) = (q.length + (L + 1)) + 1 := by
      simp only [List.length_cons]; omega
    rw [hlen] at hone hL
    obtain ⟨hroot, hone', hzero⟩ := once_below hk hq' hx hrest hone
    cases p with
    | nil => simp
    | cons m p =>
      have hm : m < n := hp m (by simp)
      have hp' : ∀ j ∈ p, j < n := fun j hj => hp j (by simp [hj])
      have hL' : p.length ≤ q.length + (L + 1) := by simpa using hL
      rw [look_eq_follow, look_eq_follow, h.other hm (.inl hroot)]
      by_cases hmk : m = k
      · subst hmk
        have hih := ih hq' hrest hone' hp' hL'
        have hpre : (m :: q ++ [i] <+: m :: p) ↔ q ++ [i] <+: p := by simp
        rw [if_congr hpre rfl rfl]
        cases p with
        | nil => simp [follow]
        | cons j p =>
          simp only [follow, hx, bind_some, hih]
          rfl
      · have hpre : ¬ (k :: q ++ [i] <+: m :: p) := by simp [Ne.symm hmk]
        rw [if_neg hpre]
        exact follow_congr h (hzero m hm hmk) hp' hL'

end

end Radix
