/-
Weights of association lists, and moving entries to other keys.

`weight w` adds up `w` over the entries. What inserting and erasing does to it is what accounting
needs; a count of entries is the weight that is 0 or 1.

`moveAll g ks` moves the entries of the keys `ks` to the keys `g k`, one after the other.
-/
import Mathlib

namespace NixVm

open List

/-- A finite map. -/
abbrev Assoc (α β : Type) := AList fun _ : α => β

namespace Assoc

variable {α β : Type} (w : α → β → Nat)

def weight (m : Assoc α β) : Nat := (m.entries.map fun e => w e.1 e.2).sum

variable [DecidableEq α] {m : Assoc α β} {a : α} {b : β}

lemma weight_insert_erase : weight w (m.insert a b) = w a b + weight w (m.erase a) := rfl

lemma weight_insert (h : a ∉ m) : weight w (m.insert a b) = w a b + weight w m := by
  unfold weight
  rw [AList.entries_insert_of_notMem h]
  rfl

lemma weight_erase (h : m.lookup a = some b) : w a b + weight w (m.erase a) = weight w m := by
  have hmem : a ∈ m := AList.lookup_isSome.mp (by rw [h]; rfl)
  obtain ⟨b', l1, l2, -, hl, he⟩ := exists_of_kerase hmem
  have hb : b' = b := by
    have hin : (⟨a, b'⟩ : Sigma fun _ => β) ∈ m.entries := by rw [hl]; simp
    have := AList.mem_lookup_iff.mpr hin
    rw [h] at this
    exact (Option.some.inj this).symm
  subst hb
  show w a b' + (List.map _ (m.entries.kerase a)).sum = (List.map _ m.entries).sum
  rw [he, hl]
  simp only [map_append, sum_append, map_cons, sum_cons]
  omega

lemma weight_replace (h : m.lookup a = some b) (b' : β) :
    weight w (m.insert a b') + w a b = weight w m + w a b' := by
  have := weight_erase w h
  rw [weight_insert_erase]
  omega

lemma le_weight (h : m.lookup a = some b) : w a b ≤ weight w m := by
  have := weight_erase w h
  omega

lemma exists_of_weight_pos (h : 0 < weight w m) : ∃ a b, m.lookup a = some b ∧ 0 < w a b := by
  by_contra hno
  push Not at hno
  have hzero : ∀ x ∈ m.entries.map fun e => w e.1 e.2, x = 0 := by
    intro x hx
    obtain ⟨e, he, rfl⟩ := mem_map.mp hx
    exact Nat.le_zero.mp (hno e.1 e.2 (AList.mem_lookup_iff.mpr he))
  have : weight w m = 0 := sum_eq_zero hzero
  omega

/-- Move the entry of a key. -/
def move (g : α → α) (m : Assoc α β) (k : α) : Assoc α β :=
  match m.lookup k with
  | some b => (m.erase k).insert (g k) b
  | none => m

def moveAll (g : α → α) (ks : List α) (m : Assoc α β) : Assoc α β := ks.foldl (move g) m

/-- Keys that can be moved: they are there, and where they go nothing is. -/
structure Movable (g : α → α) (ks : List α) (m : Assoc α β) : Prop where
  nodup : ks.Nodup
  mem : ∀ k ∈ ks, k ∈ m
  inj : ∀ k ∈ ks, ∀ k' ∈ ks, g k = g k' → k = k'
  free : ∀ k ∈ ks, g k ∉ m

variable {g : α → α} {ks : List α} {k : α}

lemma move_eq (h : m.lookup k = some b) : move g m k = (m.erase k).insert (g k) b := by
  unfold move
  rw [h]

lemma Movable.head (h : Movable g (k :: ks) m) : ∃ b, m.lookup k = some b := by
  have := h.mem k mem_cons_self
  exact Option.isSome_iff_exists.mp (AList.lookup_isSome.mpr this)

lemma Movable.tail (h : Movable g (k :: ks) m) : Movable g ks (move g m k) := by
  obtain ⟨b, hb⟩ := h.head
  have hnotin := (nodup_cons.mp h.nodup).1
  rw [move_eq hb]
  refine ⟨(nodup_cons.mp h.nodup).2, ?_, ?_, ?_⟩
  · intro k' hk'
    have hne : k' ≠ k := fun heq => hnotin (heq ▸ hk')
    have := h.mem k' (mem_cons_of_mem k hk')
    simp [hne, this]
  · intro k1 h1 k2 h2
    exact h.inj k1 (mem_cons_of_mem k h1) k2 (mem_cons_of_mem k h2)
  intro k' hk' hin
  have hfree := h.free k' (mem_cons_of_mem k hk')
  simp only [AList.mem_insert, AList.mem_erase] at hin
  rcases hin with hin | hin
  · have := h.inj k' (mem_cons_of_mem k hk') k mem_cons_self hin
    exact hnotin (this ▸ hk')
  · exact hfree hin.2

lemma Movable.lookup_other (h : Movable g ks m) {p : α} (hp : p ∉ ks)
    (hg : ∀ k ∈ ks, g k ≠ p) : (moveAll g ks m).lookup p = m.lookup p := by
  induction ks generalizing m with
  | nil => rfl
  | cons k ks ih =>
    obtain ⟨b, hb⟩ := h.head
    have hk : p ≠ k := fun heq => hp (heq ▸ mem_cons_self)
    have hgk : p ≠ g k := fun heq => hg k mem_cons_self heq.symm
    refine (ih h.tail (fun hin => hp (mem_cons_of_mem k hin))
      (fun k' hk' => hg k' (mem_cons_of_mem k hk'))).trans ?_
    rw [move_eq hb, AList.lookup_insert_ne hgk, AList.lookup_erase_ne hk]

lemma Movable.lookup_target (h : Movable g ks m) (hk : k ∈ ks) :
    (moveAll g ks m).lookup (g k) = m.lookup k := by
  induction ks generalizing m with
  | nil => cases hk
  | cons k0 ks ih =>
    obtain ⟨b, hb⟩ := h.head
    have hnotin := (nodup_cons.mp h.nodup).1
    rcases mem_cons.mp hk with rfl | hk
    · have hother : (moveAll g ks (move g m k)).lookup (g k) = (move g m k).lookup (g k) := by
        refine h.tail.lookup_other ?_ ?_
        · intro hin
          exact h.free k mem_cons_self (h.mem _ (mem_cons_of_mem k hin))
        intro k' hk' heq
        have := h.inj k' (mem_cons_of_mem k hk') k mem_cons_self heq
        exact hnotin (this ▸ hk')
      refine hother.trans ?_
      rw [move_eq hb, AList.lookup_insert, hb]
    have hne : k ≠ k0 := fun heq => hnotin (heq ▸ hk)
    have hgne : k ≠ g k0 := by
      intro heq
      exact h.free k0 mem_cons_self (heq ▸ h.mem k (mem_cons_of_mem k0 hk))
    refine (ih h.tail hk).trans ?_
    rw [move_eq hb, AList.lookup_insert_ne hgne, AList.lookup_erase_ne hne]

lemma Movable.lookup_source (h : Movable g ks m) (hk : k ∈ ks) :
    (moveAll g ks m).lookup k = none := by
  induction ks generalizing m with
  | nil => cases hk
  | cons k0 ks ih =>
    obtain ⟨b, hb⟩ := h.head
    have hnotin := (nodup_cons.mp h.nodup).1
    rcases mem_cons.mp hk with rfl | hk
    · have hfree : ∀ k' ∈ k :: ks, g k' ≠ k := by
        intro k' hk' heq
        exact h.free k' hk' (heq ▸ h.mem k mem_cons_self)
      refine (h.tail.lookup_other hnotin
        (fun k' hk' => hfree k' (mem_cons_of_mem k hk'))).trans ?_
      rw [move_eq hb, AList.lookup_insert_ne (hfree k mem_cons_self).symm, AList.lookup_erase]
    · exact ih h.tail hk

lemma weight_move (hk : m.lookup k = some b) (hfree : g k ∉ m) :
    weight w (move g m k) + w k b = weight w m + w (g k) b := by
  have := weight_erase w hk
  rw [move_eq hk, weight_insert w (fun hin => hfree (AList.mem_erase.mp hin).2)]
  omega

lemma Movable.weight_eq (h : Movable g ks m) (c : β → Nat) :
    weight (fun _ => c) (moveAll g ks m) = weight (fun _ => c) m := by
  induction ks generalizing m with
  | nil => rfl
  | cons k ks ih =>
    obtain ⟨b, hb⟩ := h.head
    have := weight_move (fun _ => c) hb (h.free k mem_cons_self)
    refine (ih h.tail).trans ?_
    omega

end Assoc

end NixVm
