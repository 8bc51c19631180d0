/-
The arena keeps its free list in order and says what each of its operations does to the set of free
addresses.

`Arena.Free` is that set: the gap below the cursor and what the list covers.
-/
import NixVm.Kernel.Arena

namespace NixVm

open Ranges

open Ranges (Range Covered Sorted In Before)

namespace Arena

/-- The free list is sorted, its ranges are non-empty, disjoint and inside `[cursor, top)`. -/
structure Ok (a : Arena) : Prop where
  floor_le : a.floor ≤ a.cursor
  cursor_le : a.cursor ≤ a.top
  top_le : a.top + 4096 ≤ 2 ^ 64
  sorted : Sorted a.free
  inside : ∀ x, Covered a.free x → a.cursor ≤ x ∧ x < a.top

def Free (a : Arena) (x : Nat) : Prop := (a.floor ≤ x ∧ x < a.cursor) ∨ Covered a.free x

lemma ok_new {top floor : Nat} (h : floor ≤ top) (htop : top + 4096 ≤ 2 ^ 64) : (new top floor).Ok :=
  ⟨h, le_rfl, htop, sorted_nil, fun _ hx => by simp [new] at hx⟩

variable {a a' : Arena} {p addr len : Nat}

lemma Ok.free_bounds (h : a.Ok) {x : Nat} (hx : a.Free x) : a.floor ≤ x ∧ x < a.top := by
  have := h.floor_le
  have := h.cursor_le
  rcases hx with hx | hx
  · omega
  have := h.inside x hx
  omega

lemma takeFit_spec : ∀ {l l' : List Range}, Sorted l → takeFit len l = some (p, l') →
    Sorted l' ∧ (∀ x, In (p, len) x → Covered l x) ∧
      ∀ x, Covered l' x ↔ Covered l x ∧ ¬In (p, len) x := by
  intro l
  induction l with
  | nil =>
    intro l' _ h
    cases h
  | cons r l ih =>
    obtain ⟨addr, flen⟩ := r
    intro l' hl h
    obtain ⟨hpos, hhead, htail⟩ := sorted_cons.mp hl
    unfold takeFit at h
    split at h
    next hfit =>
      cases h
      have hin : ∀ x, In (addr + (flen - len), len) x → In (addr, flen) x := by
        intro x hx
        unfold In at *
        omega
      refine ⟨?_, fun x hx => covered_cons.mpr (.inl (hin x hx)), fun x => ?_⟩
      · split
        · exact htail
        refine sorted_cons.mpr ⟨?_, fun s hs => ?_, htail⟩
        · dsimp only
          omega
        have := hhead s hs
        unfold Before at *
        omega
      -- the rest of the list is beyond the range that was cut
      have hout : Covered l x → ¬In (addr, flen) x := fun hc hx =>
        not_covered_of_before hhead hx hc
      have hsub := hin x
      split
      next heq =>
        subst heq
        rw [Nat.sub_self, add_zero, covered_cons]
        tauto
      have hcut : In (addr, flen - len) x ↔
          In (addr, flen) x ∧ ¬In (addr + (flen - len), len) x := by
        simp only [In]
        omega
      rw [covered_cons, covered_cons, hcut]
      tauto
    · obtain ⟨⟨q, l1⟩, hrec, heq⟩ := Option.map_eq_some_iff.mp h
      cases heq
      obtain ⟨hs, hsub, hcov⟩ := ih htail hrec
      have hout : ∀ x, In (addr, flen) x → ¬Covered l x := fun x hx =>
        not_covered_of_before hhead hx
      refine ⟨sorted_cons.mpr ⟨hpos, fun s hs' => ?_, hs⟩, fun x hx => ?_, fun x => ?_⟩
      · -- what is left covers no more than before, so it still starts later
        have hmem : Covered l s.1 := by
          have hspos := hs.nonempty s hs'
          exact ((hcov s.1).mp ⟨s, hs', by unfold In; omega⟩).1
        obtain ⟨t, ht, htx⟩ := hmem
        have := hhead t ht
        unfold In Before at *
        omega
      · exact covered_cons.mpr (.inr (hsub x hx))
      have := hout x
      have := hsub x
      rw [covered_cons, covered_cons, hcov]
      tauto

lemma alloc_spec (h : a.Ok) (ha : a.alloc len = some (p, a')) :
    a'.Ok ∧ (∀ x, In (p, len) x → a.Free x) ∧ ∀ x, a'.Free x ↔ a.Free x ∧ ¬In (p, len) x := by
  unfold alloc at ha
  split at ha
  next q free hfit =>
    cases ha
    have ⟨hs, hsub, hcov⟩ := takeFit_spec h.sorted hfit
    refine ⟨⟨h.floor_le, h.cursor_le, h.top_le, hs, fun x hx => ?_⟩, fun x hx => .inr (hsub x hx),
      fun x => ?_⟩
    · exact h.inside x ((hcov x).mp hx).1
    -- the gap below the cursor is not on the list
    have hgap := h.inside x
    have := hsub x
    simp only [Free, hcov]
    constructor
    · rintro (hx | ⟨hx, hn⟩)
      · refine ⟨.inl hx, fun hin => ?_⟩
        have := hgap (this hin)
        omega
      · exact ⟨.inr hx, hn⟩
    · rintro ⟨hx | hx, hn⟩
      · exact .inl hx
      · exact .inr ⟨hx, hn⟩
  · split at ha
    · cases ha
    cases ha
    have := h.cursor_le
    refine ⟨⟨by dsimp only; omega, by dsimp only; omega, h.top_le, h.sorted, fun x hx => ?_⟩,
      fun x hx => .inl ?_, fun x => ?_⟩
    · have := h.inside x hx
      dsimp only
      omega
    · unfold In at hx
      omega
    have hgap := h.inside x
    simp only [Free, In]
    constructor
    · rintro (hx | hx)
      · exact ⟨.inl (by omega), by omega⟩
      have := hgap hx
      exact ⟨.inr hx, by omega⟩
    · rintro ⟨hx | hx, hn⟩
      · exact .inl (by omega)
      · exact .inr hx

lemma claim_spec (h : a.Ok) (addr len : Nat) : (a.claim addr len).Ok ∧ (addr + len < 2 ^ 64 →
      ∀ x, (a.claim addr len).Free x ↔ a.Free x ∧ ¬In (addr, len) x) := by
  unfold claim
  dsimp only
  split
  next hnone =>
    refine ⟨h, fun hlt x => ?_⟩
    have hout : ¬In (addr, len) x := by
      simp only [In]
      omega
    simp [hout]
  have hcut := h.sorted.cutAll (Nat.le_add_right addr len)
  have hinside : ∀ x, Covered (cutAll addr (addr + len) a.free) x →
      a.cursor ≤ x ∧ x < a.top := fun x hx => h.inside x (covered_cutAll.mp hx).1
  have := h.floor_le
  have := h.cursor_le
  split
  next hgap =>
    split
    next hstop =>
      -- the new range lies below the old cursor, the others above it
      have hfree : ∀ r ∈ cutAll addr (addr + len) a.free,
          ¬(addr + len < r.1 + r.2 ∧ r.1 < addr + len + (a.cursor - (addr + len))) := by
        intro r hr
        have := hcut.inside_iff.mp hinside r hr
        omega
      refine ⟨⟨?_, ?_, h.top_le, hcut.insert (by omega) hfree, fun x hx => ?_⟩, fun _ x => ?_⟩
      · exact le_max_right ..
      · dsimp only
        omega
      · rcases covered_insert.mp hx with hx | hx
        · have := hinside x hx
          dsimp only
          omega
        unfold In at hx
        dsimp only at hx ⊢
        omega
      have := hinside x
      have := h.inside x
      simp only [Free, covered_insert, covered_cutAll, In] at *
      by_cases hc : Covered a.free x
      · have := h.inside x hc
        simp only [hc, true_and, or_true] at *
        omega
      · simp only [hc, false_and, or_false, false_or] at *
        omega
    · refine ⟨⟨le_max_right .., by dsimp only; omega, h.top_le, hcut, fun x hx => ?_⟩,
        fun _ x => ?_⟩
      · have := hinside x hx
        dsimp only
        omega
      simp only [Free, covered_cutAll, In]
      by_cases hc : Covered a.free x
      · have := h.inside x hc
        simp only [hc, true_and, or_true]
        omega
      · simp only [hc, false_and, or_false]
        omega
  · refine ⟨⟨h.floor_le, h.cursor_le, h.top_le, hcut, hinside⟩, fun _ x => ?_⟩
    simp only [Free, covered_cutAll, In]
    by_cases hc : Covered a.free x
    · have := h.inside x hc
      simp only [hc, true_and, or_true]
      omega
    · simp only [hc, false_and, or_false]
      omega

lemma absorb_spec (fuel : Nat) : ∀ {c : Nat} {l : List Range}, Sorted l →
    (∀ x, Covered l x → c ≤ x) → Sorted (absorb fuel c l).2 ∧ c ≤ (absorb fuel c l).1 ∧
      (∀ x, Covered (absorb fuel c l).2 x → (absorb fuel c l).1 ≤ x) ∧
      ∀ x, (c ≤ x ∧ x < (absorb fuel c l).1) ∨ Covered (absorb fuel c l).2 x ↔ Covered l x := by
  induction fuel with
  | zero =>
    intro c l hl hc
    refine ⟨hl, le_rfl, hc, fun x => ?_⟩
    simp only [absorb]
    exact or_iff_right (by omega)
  | succ fuel ih =>
    intro c l hl hc
    unfold absorb
    split
    · exact ⟨hl, le_rfl, hc, fun x => or_iff_right (by dsimp only; omega)⟩
    rename_i r hr
    have hmem := List.mem_of_find?_eq_some hr
    have hstart : r.1 = c := by simpa using List.find?_some hr
    have hpos := hl.nonempty r hmem
    -- the others do not meet the range at the cursor, so they start after it
    have hrest : ∀ x, Covered (l.erase r) x → c + r.2 ≤ x := by
      intro x hx
      have ⟨hx, hn⟩ := (hl.covered_erase hmem).mp hx
      have := hc x hx
      unfold In at hn
      omega
    have ⟨hs, hle, hbound, hcov⟩ := ih (hl.erase r) hrest
    refine ⟨hs, by omega, hbound, fun x => ?_⟩
    have hx := hcov x
    rw [hl.covered_erase hmem] at hx
    have hin : In r x → Covered l x := fun h => ⟨r, hmem, h⟩
    unfold In at hx hin
    constructor
    · rintro (h | h)
      · by_cases hlt : x < c + r.2
        · exact hin (by omega)
        · exact (hx.mp (.inl (by omega))).1
      · exact (hx.mp (.inr h)).1
    intro h
    by_cases hlt : x < c + r.2
    · have := hc x h
      exact .inl (by omega)
    rcases hx.mpr ⟨h, by omega⟩ with h | h
    · exact .inl (by omega)
    · exact .inr h

lemma joinNext_spec {before after : List Range} {r : Range} (h : Sorted (before ++ r :: after)) :
    Sorted (before ++ joinNext r after) ∧
      ∀ x, Covered (before ++ joinNext r after) x ↔ Covered (before ++ r :: after) x := by
  obtain ⟨addr, len⟩ := r
  unfold joinNext
  cases after with
  | nil => exact ⟨h, fun _ => Iff.rfl⟩
  | cons s rest =>
    obtain ⟨na, nl⟩ := s
    dsimp only
    split
    next heq =>
      subst heq
      exact ⟨h.merge, fun x => covered_merge⟩
    · exact ⟨h, fun _ => Iff.rfl⟩

lemma joinPrevious_spec {before after : List Range} (h : Sorted (before ++ after)) :
    Sorted (joinPrevious before after) ∧
      ∀ x, Covered (joinPrevious before after) x ↔ Covered (before ++ after) x := by
  unfold joinPrevious
  split
  next pa pl addr len rest hlast =>
    split
    next heq =>
      subst heq
      obtain ⟨init, rfl⟩ := List.getLast?_eq_some_iff.mp hlast
      rw [List.append_assoc] at h ⊢
      rw [List.dropLast_concat]
      exact ⟨h.merge, fun x => covered_merge⟩
    · exact ⟨h, fun _ => Iff.rfl⟩
  · exact ⟨h, fun _ => Iff.rfl⟩

lemma freeRange_spec (h : a.Ok) (addr len : Nat) : (a.freeRange addr len).Ok ∧
      ∀ x, (a.freeRange addr len).Free x → a.Free x ∨ In (addr, len) x := by
  unfold freeRange
  dsimp only
  split
  · exact ⟨h, fun _ => .inl⟩
  rename_i hok
  push Not at hok
  split
  · exact ⟨h, fun _ => .inl⟩
  rename_i hfree
  have hapart : ∀ r ∈ a.free, ¬(addr < r.1 + r.2 ∧ r.1 < addr + len) := by
    intro r hr hboth
    exact hfree (List.any_eq_true.mpr ⟨r, hr, by simpa using hboth⟩)
  have := h.floor_le
  have := h.cursor_le
  split
  · -- right at the cursor, which moves up
    have hrest : ∀ x, Covered a.free x → addr + len ≤ x := by
      rintro x ⟨r, hr, hx⟩
      have := h.inside x ⟨r, hr, hx⟩
      have := hapart r hr
      have hstart := (h.sorted.inside_iff.mp h.inside r hr).1
      unfold In at hx
      omega
    have ⟨hs, hle, hbound, hcov⟩ := absorb_spec a.free.length h.sorted hrest
    have htop : (absorb a.free.length (addr + len) a.free).1 ≤ a.top := by
      by_contra hgt
      -- its last address would be covered and beyond the top
      have hlast := (hcov a.top).mp (.inl (by omega))
      have := h.inside _ hlast
      omega
    refine ⟨⟨by dsimp only; omega, htop, h.top_le, hs, fun x hx => ?_⟩, fun x hx => ?_⟩
    · exact ⟨hbound x hx, (h.inside x ((hcov x).mp (.inr hx))).2⟩
    rcases hx with hx | hx
    · dsimp only at hx
      by_cases hlow : x < a.cursor
      · exact .inl (.inl (by omega))
      by_cases hin : x < addr + len
      · exact .inr (by unfold In; dsimp only; omega)
      · exact .inl (.inr ((hcov x).mp (.inl (by omega))))
    · exact .inl (.inr ((hcov x).mp (.inr hx)))
  have hins := h.sorted.insert (a := addr) (n := len) (by omega) hapart
  have ⟨hs1, hcov1⟩ := joinNext_spec hins
  have ⟨hs, hcov⟩ := joinPrevious_spec hs1
  have hcov' : ∀ x, Covered (joinPrevious (below addr a.free)
      (joinNext (addr, len) (above addr a.free))) x ↔
      Covered a.free x ∨ In (addr, len) x :=
    fun x => (hcov x).trans ((hcov1 x).trans covered_insert)
  refine ⟨⟨h.floor_le, h.cursor_le, h.top_le, hs, fun x hx => ?_⟩, fun x hx => ?_⟩
  · rcases (hcov' x).mp hx with hx | hx
    · exact h.inside x hx
    unfold In at hx
    dsimp only at hx ⊢
    omega
  · rcases hx with hx | hx
    · exact .inl (.inl hx)
    · exact ((hcov' x).mp hx).imp_left .inr

end Arena

end NixVm
