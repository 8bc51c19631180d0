/-
Longest-prefix match.

`best place l p` is the entry of `l` whose place is the longest prefix of `p`, and the last of
those when there are several. A list that answers is one of its parts that answers, and moving all
places below a common one moves the answers with them. The entries that answer are those that stand
last at their place (`Last`).
-/
import Mathlib

namespace NixVm.Longest

open List

variable {α β : Type*} [DecidableEq β] {place : α → List β}

/-- One entry against the best so far. -/
def improve (place : α → List β) (p : List β) (best : Option α) (x : α) : Option α :=
  if place x <+: p ∧ ∀ y ∈ best, (place y).length ≤ (place x).length then some x else best

/-- The entry with the longest place that is a prefix of `p`, the last among equals. -/
def best (place : α → List β) (l : List α) (p : List β) : Option α :=
  l.foldl (improve place p) none

lemma best_concat (l : List α) (x : α) (p : List β) :
    best place (l ++ [x]) p = improve place p (best place l p) x := by
  simp [best]

lemma best_ne_none (l : List α) {p : List β} {y : α} (hy : y ∈ l) (hyp : place y <+: p) :
    best place l p ≠ none := by
  induction l using List.reverseRecOn with
  | nil => cases hy
  | append_singleton l z ih =>
    rw [best_concat, improve]
    split
    · simp
    rename_i hz
    rcases mem_append.mp hy with hy | hy
    · exact ih hy
    rw [mem_singleton.mp hy] at hyp
    intro hnone
    exact hz ⟨hyp, fun w hw => by rw [hnone] at hw; cases hw⟩

lemma best_spec (l : List α) {p : List β} {x : α} (h : best place l p = some x) :
    x ∈ l ∧ place x <+: p ∧ ∀ y ∈ l, place y <+: p → (place y).length ≤ (place x).length := by
  induction l using List.reverseRecOn generalizing x with
  | nil => cases h
  | append_singleton l z ih =>
    rw [best_concat, improve] at h
    split at h
    next hz =>
      cases h
      refine ⟨by simp, hz.1, fun y hy hyp => ?_⟩
      rcases mem_append.mp hy with hy | hy
      · cases hbest : best place l p with
        | none => exact absurd hbest (best_ne_none l hy hyp)
        | some w =>
          have hw := hz.2 w hbest
          have := (ih hbest).2.2 y hy hyp
          omega
      · obtain rfl := mem_singleton.mp hy
        exact Nat.le_refl _
    next hz =>
      have ⟨hmem, hpre, hmax⟩ := ih h
      refine ⟨by simp [hmem], hpre, fun y hy hyp => ?_⟩
      rcases mem_append.mp hy with hy | hy
      · exact hmax y hy hyp
      rw [mem_singleton.mp hy] at hyp ⊢
      by_contra hlt
      exact hz ⟨hyp, fun w hw => by rw [h] at hw; cases hw; omega⟩

lemma best_last {l : List α} {x : α} {p : List β} (hx : place x <+: p)
    (hle : ∀ y ∈ l, place y <+: p → (place y).length ≤ (place x).length) :
    best place (l ++ [x]) p = some x := by
  rw [best_concat, improve]
  refine if_pos ⟨hx, fun y hy => ?_⟩
  obtain ⟨hmem, hpre, -⟩ := best_spec l hy
  exact hle y hmem hpre

lemma best_append {l1 l2 : List α} {p : List β} {x : α} (h : best place (l1 ++ l2) p = some x) :
    best place l1 p = some x ∨ best place l2 p = some x := by
  induction l2 using List.reverseRecOn generalizing x with
  | nil =>
    rw [append_nil] at h
    exact .inl h
  | append_singleton l2 z ih =>
    rw [← append_assoc, best_concat, improve] at h
    rw [best_concat, improve]
    split at h
    next hz =>
      cases h
      refine Or.inr (if_pos ⟨hz.1, fun y hy => ?_⟩)
      obtain ⟨hmem, hpre, -⟩ := best_spec l2 hy
      cases hall : best place (l1 ++ l2) p with
      | none => exact absurd hall (best_ne_none _ (by simp [hmem]) hpre)
      | some w =>
        have hw := hz.2 w hall
        have := (best_spec _ hall).2.2 y (by simp [hmem]) hpre
        omega
    next hz =>
      rcases ih h with h1 | h2
      · exact .inl h1
      refine Or.inr ?_
      rw [if_neg]
      · exact h2
      rintro ⟨hzp, hle⟩
      exact hz ⟨hzp, fun w hw => by rw [h] at hw; cases hw; exact hle x h2⟩

lemma best_filter {l : List α} {p : List β} {x : α} {q : α → Bool}
    (h : best place l p = some x) (hq : q x = true) : best place (l.filter q) p = some x := by
  induction l using List.reverseRecOn generalizing x with
  | nil => cases h
  | append_singleton l z ih =>
    rw [best_concat, improve] at h
    rw [filter_append]
    split at h
    next hz =>
      cases h
      rw [filter_cons_of_pos hq, filter_nil, best_concat, improve]
      refine if_pos ⟨hz.1, fun y hy => ?_⟩
      obtain ⟨hmem, hpre, -⟩ := best_spec _ hy
      have hmem := (mem_filter.mp hmem).1
      cases hall : best place l p with
      | none => exact absurd hall (best_ne_none _ hmem hpre)
      | some w =>
        have hw := hz.2 w hall
        have := (best_spec _ hall).2.2 y hmem hpre
        omega
    next hz =>
      have hrest := ih h hq
      cases hqz : q z with
      | false =>
        rw [filter_cons_of_neg (by simp [hqz]), filter_nil, append_nil]
        exact hrest
      | true =>
        rw [filter_cons_of_pos hqz, filter_nil, best_concat, improve, if_neg]
        · exact hrest
        rintro ⟨hzp, hle⟩
        exact hz ⟨hzp, fun w hw => by rw [h] at hw; cases hw; exact hle x hrest⟩

lemma best_map {γ : Type*} (f : γ → α) (l : List γ) (p : List β) :
    best place (l.map f) p = (best (fun x => place (f x)) l p).map f := by
  induction l using List.reverseRecOn with
  | nil => rfl
  | append_singleton l z ih =>
    rw [map_append, map_cons, map_nil, best_concat, best_concat, ih, improve, improve]
    cases best (fun x => place (f x)) l p with
    | none => simp
    | some w =>
      simp only [Option.map_some, Option.mem_def, Option.some.injEq, forall_eq']
      split <;> rfl

lemma best_congr {place' : α → List β} {l : List α} {p q : List β}
    (hplace : ∀ x ∈ l, place' x = place x) (hmatch : ∀ x ∈ l, place x <+: q ↔ place x <+: p) :
    best place' l q = best place l p := by
  induction l using List.reverseRecOn with
  | nil => rfl
  | append_singleton l z ih =>
    have hrest := ih (fun x hx => hplace x (by simp [hx])) fun x hx => hmatch x (by simp [hx])
    rw [best_concat, best_concat, hrest, improve, improve, hplace z (by simp)]
    have hlen : (∀ y ∈ best place l p, (place' y).length ≤ (place z).length) ↔
        ∀ y ∈ best place l p, (place y).length ≤ (place z).length := by
      refine forall_congr' fun y => imp_congr_right fun hy => ?_
      rw [hplace y (by simp [(best_spec l hy).1])]
    simp only [hmatch z (by simp), hlen]

lemma best_shift (t : List β) (l : List α) (p : List β) :
    best (fun x => t ++ place x) l (t ++ p) = best place l p := by
  induction l using List.reverseRecOn with
  | nil => rfl
  | append_singleton l z ih =>
    rw [best_concat, best_concat, ih, improve, improve]
    simp only [prefix_append_right_inj, length_append, Nat.add_le_add_iff_left]

/-! ### The last entry at a place -/

/-- `x` stands in the list, and nothing at its place stands after it. -/
def Last (place : α → List β) (l : List α) (x : α) : Prop :=
  ∃ l1 l2, l = l1 ++ x :: l2 ∧ ∀ y ∈ l2, place y ≠ place x

omit [DecidableEq β] in
lemma last_append {l1 l2 : List α} {x : α} : Last place (l1 ++ l2) x ↔
    Last place l2 x ∨ Last place l1 x ∧ ∀ y ∈ l2, place y ≠ place x := by
  constructor
  · rintro ⟨a, b, hab, hlast⟩
    rcases append_eq_append_iff.mp hab with ⟨c, rfl, rfl⟩ | ⟨c, rfl, hc⟩
    · exact .inl ⟨c, b, rfl, hlast⟩
    · cases c with
      | nil => exact .inl ⟨[], b, hc.symm, hlast⟩
      | cons z c =>
        rw [cons_append] at hc
        obtain ⟨rfl, rfl⟩ := cons.inj hc
        exact .inr ⟨⟨a, c, rfl, fun y hy => hlast y (mem_append_left _ hy)⟩,
          fun y hy => hlast y (mem_append_right _ hy)⟩
  · rintro (⟨a, b, rfl, hlast⟩ | ⟨⟨a, b, rfl, hlast⟩, hafter⟩)
    · exact ⟨l1 ++ a, b, by simp, hlast⟩
    · exact ⟨a, b ++ l2, by simp, fun y hy => (mem_append.mp hy).elim (hlast y) (hafter y)⟩

omit [DecidableEq β] in
lemma last_singleton {x z : α} : Last place [z] x ↔ x = z := by
  constructor
  · rintro ⟨a, b, hab, -⟩
    exact (mem_singleton.mp (hab ▸ by simp : x ∈ [z]))
  · rintro rfl
    exact ⟨[], [], rfl, fun y hy => by cases hy⟩

omit [DecidableEq β] in
lemma last_map {γ : Type*} {f : γ → α} {l : List γ} {y : α} :
    Last place (l.map f) y ↔ ∃ x, f x = y ∧ Last (fun x => place (f x)) l x := by
  constructor
  · rintro ⟨a, b, hab, hlast⟩
    obtain ⟨a', b', rfl, rfl, hb'⟩ := map_eq_append_iff.mp hab
    obtain ⟨x, c, rfl, rfl, rfl⟩ := map_eq_cons_iff.mp hb'
    exact ⟨x, rfl, a', c, rfl, fun z hz => hlast _ (mem_map_of_mem hz)⟩
  · rintro ⟨x, rfl, a, b, rfl, hlast⟩
    refine ⟨a.map f, b.map f, by simp, fun z hz => ?_⟩
    obtain ⟨w, hw, rfl⟩ := mem_map.mp hz
    exact hlast w hw

lemma exists_last {l : List α} {x : α} (hx : x ∈ l) : ∃ y, Last place l y ∧ place y = place x := by
  induction l using List.reverseRecOn with
  | nil => cases hx
  | append_singleton l z ih =>
    by_cases hz : place z = place x
    · exact ⟨z, last_append.mpr (.inl (last_singleton.mpr rfl)), hz⟩
    have hx : x ∈ l := (mem_append.mp hx).resolve_right fun h => hz (by rw [mem_singleton.mp h])
    obtain ⟨y, hy, hplace⟩ := ih hx
    refine ⟨y, last_append.mpr (.inr ⟨hy, fun w hw => ?_⟩), hplace⟩
    rw [mem_singleton.mp hw, hplace]
    exact hz

lemma last_of_best {l : List α} {p : List β} {x : α} (h : best place l p = some x) :
    Last place l x := by
  induction l using List.reverseRecOn with
  | nil => cases h
  | append_singleton l z ih =>
    rw [best_concat, improve] at h
    split at h
    · cases h
      exact last_append.mpr (.inl (last_singleton.mpr rfl))
    next hz =>
      refine last_append.mpr (.inr ⟨ih h, fun y hy hplace => hz ?_⟩)
      rw [← mem_singleton.mp hy, hplace, h]
      exact ⟨(best_spec l h).2.1, fun w hw => by cases hw; exact Nat.le_refl _⟩

lemma best_of_last {l : List α} {x : α} (h : Last place l x) :
    best place l (place x) = some x := by
  induction l using List.reverseRecOn with
  | nil =>
    obtain ⟨a, b, hab, -⟩ := h
    simp at hab
  | append_singleton l z ih =>
    rcases last_append.mp h with hz | ⟨hl, hz⟩
    · rw [last_singleton.mp hz]
      exact best_last prefix_rfl fun y _ hy => hy.length_le
    · rw [best_concat, improve, ih hl, if_neg]
      rintro ⟨hpre, hle⟩
      exact hz z mem_cons_self (hpre.eq_of_length_le (hle x rfl))

/-- What answers below a place where an entry is are the last entries of the places there. -/
lemma forall_best_iff {l : List α} {Q : α → Prop} {x : α} (hx : x ∈ l) :
    (∀ p, place x <+: p → ∃ y, Q y ∧ best place l p = some y) ↔
      ∀ y, Last place l y → place x <+: place y → Q y := by
  constructor
  · intro h y hy hpre
    obtain ⟨z, hz, hbest⟩ := h _ hpre
    rw [best_of_last hy] at hbest
    cases hbest
    exact hz
  · intro h p hp
    obtain ⟨y, hy⟩ := Option.ne_none_iff_exists'.mp (best_ne_none l hx hp)
    obtain ⟨-, hpre, hmax⟩ := best_spec l hy
    exact ⟨y, h y (last_of_best hy) (prefix_of_prefix_length_le hp hpre (hmax x hx hp)), hy⟩

/-- Entries whose places are longer than those of the others, where they match. -/
lemma best_of_longer {l : List α} {p : List β} {q : α → Bool} {x : α}
    (h : best place (l.filter q) p = some x)
    (hlong : ∀ y ∈ l, q y = false → place y <+: p → (place y).length < (place x).length) :
    best place l p = some x := by
  obtain ⟨hmem, hpre, -⟩ := best_spec _ h
  have hmem := (mem_filter.mp hmem).1
  cases hall : best place l p with
  | none => exact absurd hall (best_ne_none _ hmem hpre)
  | some y =>
    have ⟨hy, hypre, hmax⟩ := best_spec _ hall
    cases hq : q y with
    | false =>
      have := hlong y hy hq hypre
      have := hmax x hmem hpre
      omega
    | true => rw [← h, best_filter hall hq]

end NixVm.Longest
