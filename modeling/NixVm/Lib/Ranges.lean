/-
Lists of address ranges, each a start and a length.

What a list covers is a set of addresses (`Covered`), and every operation here is described by what
it does to that set: taking an interval out of every range (`cutAll`), putting a range in its place
in a sorted list, and merging two that touch.
-/
import Mathlib

namespace NixVm.Ranges

open List

/-- A start and a length. -/
abbrev Range := Nat × Nat

def In (r : Range) (x : Nat) : Prop := r.1 ≤ x ∧ x < r.1 + r.2

def Covered (l : List Range) (x : Nat) : Prop := ∃ r ∈ l, In r x

/-- The first ends where the second starts, or earlier. -/
def Before (r s : Range) : Prop := r.1 + r.2 ≤ s.1

/-- In order of their starts, disjoint, and none empty. -/
structure Sorted (l : List Range) : Prop where
  nonempty : ∀ r ∈ l, 0 < r.2
  before : l.Pairwise Before

variable {l before rest : List Range} {r s : Range} {x lo hi a n m : Nat}

@[simp]
lemma covered_nil : Covered [] x ↔ False := by simp [Covered]

@[simp]
lemma covered_cons : Covered (r :: l) x ↔ In r x ∨ Covered l x := by simp [Covered]

@[simp]
lemma covered_append : Covered (l ++ rest) x ↔ Covered l x ∨ Covered rest x := by
  simp [Covered, or_and_right, exists_or]

lemma sorted_nil : Sorted [] := ⟨nofun, List.Pairwise.nil⟩

lemma sorted_cons : Sorted (r :: l) ↔ 0 < r.2 ∧ (∀ s ∈ l, Before r s) ∧ Sorted l := by
  constructor
  · rintro ⟨hpos, hb⟩
    have ⟨hhead, htail⟩ := pairwise_cons.mp hb
    exact ⟨hpos r mem_cons_self, hhead, ⟨fun s hs => hpos s (mem_cons_of_mem r hs), htail⟩⟩
  rintro ⟨hpos, hhead, htail⟩
  refine ⟨fun s hs => ?_, pairwise_cons.mpr ⟨hhead, htail.before⟩⟩
  rcases mem_cons.mp hs with rfl | hs
  · exact hpos
  · exact htail.nonempty s hs

lemma sorted_append : Sorted (l ++ rest) ↔
    Sorted l ∧ Sorted rest ∧ ∀ r ∈ l, ∀ s ∈ rest, Before r s := by
  constructor
  · rintro ⟨hpos, hb⟩
    have ⟨hl, hr, hlr⟩ := pairwise_append.mp hb
    exact ⟨⟨fun r hr => hpos r (mem_append_left _ hr), hl⟩,
      ⟨fun r hr => hpos r (mem_append_right _ hr), hr⟩, hlr⟩
  rintro ⟨hl, hr, hlr⟩
  refine ⟨fun r hr' => ?_, pairwise_append.mpr ⟨hl.before, hr.before, hlr⟩⟩
  rcases mem_append.mp hr' with h | h
  · exact hl.nonempty r h
  · exact hr.nonempty r h

lemma not_covered_of_before (h : ∀ s ∈ l, Before r s) (hx : In r x) : ¬Covered l x := by
  rintro ⟨s, hs, hsx⟩
  have := h s hs
  unfold Before In at *
  omega

lemma Sorted.inside_iff (h : Sorted l) :
    (∀ x, Covered l x → lo ≤ x ∧ x < hi) ↔ ∀ r ∈ l, lo ≤ r.1 ∧ r.1 + r.2 ≤ hi := by
  constructor
  · intro hc r hr
    have hpos := h.nonempty r hr
    have hfirst := hc r.1 ⟨r, hr, by unfold In; omega⟩
    have hlast := hc (r.1 + r.2 - 1) ⟨r, hr, by unfold In; omega⟩
    omega
  rintro hb x ⟨r, hr, hx⟩
  have := hb r hr
  unfold In at hx
  omega

lemma Sorted.apart (h : Sorted l) (hr : r ∈ l) (hs : s ∈ l) (hne : r ≠ s) (hx : In r x) :
    ¬In s x := by
  intro hsx
  have hall : l.Pairwise fun r s => ¬(In r x ∧ In s x) :=
    h.before.imp fun hrs hboth => by unfold Before In at *; omega
  have : Std.Symm fun r s : Range => ¬(In r x ∧ In s x) := ⟨fun _ _ hn hboth => hn hboth.symm⟩
  exact hall.forall hr hs hne ⟨hx, hsx⟩

lemma Sorted.nodup (h : Sorted l) : l.Nodup := by
  refine (List.Pairwise.and_mem.mp h.before).imp ?_
  rintro r s ⟨hr, -, hrs⟩ rfl
  have := h.nonempty r hr
  unfold Before at hrs
  omega

lemma Sorted.erase (h : Sorted l) (r : Range) : Sorted (l.erase r) :=
  ⟨fun s hs => h.nonempty s (mem_of_mem_erase hs), h.before.sublist erase_sublist⟩

lemma Sorted.covered_erase (h : Sorted l) (hr : r ∈ l) :
    Covered (l.erase r) x ↔ Covered l x ∧ ¬In r x := by
  constructor
  · rintro ⟨s, hs, hx⟩
    have ⟨hne, hs⟩ := h.nodup.mem_erase_iff.mp hs
    exact ⟨⟨s, hs, hx⟩, h.apart hs hr hne hx⟩
  rintro ⟨⟨s, hs, hx⟩, hn⟩
  refine ⟨s, h.nodup.mem_erase_iff.mpr ⟨?_, hs⟩, hx⟩
  rintro rfl
  exact hn hx

def cut (lo hi : Nat) (r : Range) : List Range :=
  if r.1 + r.2 ≤ lo ∨ hi ≤ r.1 then [r]
  else
    (if r.1 < lo then [(r.1, lo - r.1)] else []) ++
    (if hi < r.1 + r.2 then [(hi, r.1 + r.2 - hi)] else [])

def cutAll (lo hi : Nat) (l : List Range) : List Range := l.flatMap (cut lo hi)

lemma covered_cut : Covered (cut lo hi r) x ↔ In r x ∧ ¬(lo ≤ x ∧ x < hi) := by
  unfold cut
  split
  · simp only [covered_cons, covered_nil, or_false, In]
    omega
  split <;> split <;>
    simp only [covered_append, covered_cons, covered_nil, or_false, or_self, false_or, In,
      false_iff] <;> omega

@[simp]
lemma covered_cutAll : Covered (cutAll lo hi l) x ↔ Covered l x ∧ ¬(lo ≤ x ∧ x < hi) := by
  induction l with
  | nil => simp [cutAll]
  | cons r l ih =>
    have hcons : cutAll lo hi (r :: l) = cut lo hi r ++ cutAll lo hi l := rfl
    rw [hcons, covered_append, covered_cut, ih, covered_cons, or_and_right]

lemma mem_cut (h : s ∈ cut lo hi r) : r.1 ≤ s.1 ∧ s.1 + s.2 ≤ r.1 + r.2 ∧ (0 < r.2 → 0 < s.2) := by
  unfold cut at h
  split at h
  · cases mem_singleton.mp h
    exact ⟨le_rfl, le_rfl, id⟩
  rcases mem_append.mp h with h | h
  · split at h
    · cases mem_singleton.mp h
      refine ⟨?_, ?_, fun _ => ?_⟩ <;> dsimp only <;> omega
    · cases h
  split at h
  · cases mem_singleton.mp h
    refine ⟨?_, ?_, fun _ => ?_⟩ <;> dsimp only <;> omega
  · cases h

lemma pairwise_cut (h : lo ≤ hi) : (cut lo hi r).Pairwise Before := by
  unfold cut
  split
  · exact pairwise_singleton ..
  split <;> split <;> simp [Before]
  omega

lemma Sorted.cutAll (h : Sorted l) (hle : lo ≤ hi) : Sorted (cutAll lo hi l) := by
  constructor
  · intro s hs
    have ⟨r, hr, hs⟩ := mem_flatMap.mp hs
    exact (mem_cut hs).2.2 (h.nonempty r hr)
  refine pairwise_flatMap.mpr ⟨fun r _ => pairwise_cut hle, h.before.imp ?_⟩
  intro r s hrs r' hr' s' hs'
  have hr' := mem_cut hr'
  have hs' := mem_cut hs'
  unfold Before at *
  omega

def below (a : Nat) (l : List Range) : List Range := l.takeWhile fun r => r.1 < a

/-- The others. -/
def above (a : Nat) (l : List Range) : List Range := l.dropWhile fun r => r.1 < a

lemma below_append_above : below a l ++ above a l = l := takeWhile_append_dropWhile

lemma mem_below (h : r ∈ below a l) : r.1 < a := by
  simpa using all_eq_true.mp all_takeWhile r h

/-- In a sorted list the ranges after one that starts at the address or later do so too. -/
lemma Sorted.mem_above (h : Sorted l) (hr : r ∈ above a l) : a ≤ r.1 := by
  induction l with
  | nil => cases hr
  | cons s l ih =>
    have ⟨hpos, hs, hl⟩ := sorted_cons.mp h
    unfold above at hr
    rw [dropWhile_cons] at hr
    split at hr
    · exact ih hl hr
    rename_i hns
    have hs' : a ≤ s.1 := by simpa using hns
    rcases mem_cons.mp hr with rfl | hr
    · exact hs'
    have := hs r hr
    unfold Before at this
    omega

lemma Sorted.insert (h : Sorted l) (hn : 0 < n) (hfree : ∀ r ∈ l, ¬(a < r.1 + r.2 ∧ r.1 < a + n)) :
    Sorted (below a l ++ (a, n) :: above a l) := by
  have hl : Sorted (below a l ++ above a l) := below_append_above.symm ▸ h
  have hmem : ∀ r, r ∈ below a l ∨ r ∈ above a l → r ∈ l := by
    intro r hr
    rw [← below_append_above (a := a) (l := l)]
    exact mem_append.mpr hr
  have ⟨hbelow, habove, hba⟩ := sorted_append.mp hl
  refine sorted_append.mpr ⟨hbelow, sorted_cons.mpr ⟨hn, fun s hs => ?_, habove⟩, ?_⟩
  · have hs' := h.mem_above hs
    have hpos := habove.nonempty s hs
    have := hfree s (hmem s (.inr hs))
    show a + n ≤ s.1
    omega
  intro r hr s hs
  rcases mem_cons.mp hs with rfl | hs
  · have hr' := mem_below hr
    have := hfree r (hmem r (.inl hr))
    show r.1 + r.2 ≤ a
    omega
  · exact hba r hr s hs

lemma covered_insert : Covered (below a l ++ r :: above a l) x ↔ Covered l x ∨ In r x := by
  conv_rhs => rw [← below_append_above (a := a) (l := l)]
  simp only [covered_append, covered_cons]
  tauto

lemma Sorted.merge (h : Sorted (before ++ (a, n) :: (a + n, m) :: rest)) :
    Sorted (before ++ (a, n + m) :: rest) := by
  have ⟨hbefore, htail, hcross⟩ := sorted_append.mp h
  have ⟨hn, hfirst, htail⟩ := sorted_cons.mp htail
  have ⟨hm, hsecond, hrest⟩ := sorted_cons.mp htail
  refine sorted_append.mpr ⟨hbefore, sorted_cons.mpr ⟨?_, fun s hs => ?_, hrest⟩, ?_⟩
  · dsimp only at hn ⊢
    omega
  · have := hsecond s hs
    unfold Before at *
    omega
  intro r hr s hs
  rcases mem_cons.mp hs with rfl | hs
  · exact hcross r hr (a, n) mem_cons_self
  · exact hcross r hr s (mem_cons_of_mem _ (mem_cons_of_mem _ hs))

lemma covered_merge : Covered (before ++ (a, n + m) :: rest) x ↔
      Covered (before ++ (a, n) :: (a + n, m) :: rest) x := by
  have hin : In (a, n + m) x ↔ In (a, n) x ∨ In (a + n, m) x := by
    simp only [In]
    omega
  simp only [covered_append, covered_cons, hin, or_assoc]

end NixVm.Ranges
