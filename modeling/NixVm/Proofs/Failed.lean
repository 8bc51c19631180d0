/-
Calls that fail.

A store that runs out of frames has backed some pages with zeros and made copies of others, which
nobody can tell from what was there; it has not stored anything.
-/
import NixVm.Proofs.Books

namespace NixVm

open Finset Radix GuestMemory Option

/-- From `pl` to `pl'` no byte changes, and what a user could reach stays in reach. -/
structure Backs (roots : Finset Nat) (pl pl' : Pool) : Prop where
  bytes : ∀ s ∈ roots, ∀ a, byteAt pl'.phys s a = byteAt pl.phys s a
  stays : ∀ s ∈ roots, ∀ a e, leaf pl.phys s a = some e →
    ∃ e', leaf pl'.phys s a = some e' ∧ (Pte.user e = true → Pte.user e' = true)

section Backing

variable {roots : Finset Nat} {held : Nat → Nat} {r : Nat} {g : GuestMemory} {pl pl' pl'' : Pool}
  {s : AddrSpace}

lemma Backs.refl (roots : Finset Nat) (pl : Pool) : Backs roots pl pl :=
  ⟨fun _ _ _ => rfl, fun _ _ _ e he => ⟨e, he, id⟩⟩

lemma Backs.trans (h : Backs roots pl pl') (h' : Backs roots pl' pl'') : Backs roots pl pl'' := by
  refine ⟨fun s hs a => (h'.bytes s hs a).trans (h.bytes s hs a), fun s hs a e he => ?_⟩
  have ⟨e1, he1, hu1⟩ := h.stays s hs a e he
  have ⟨e2, he2, hu2⟩ := h'.stays s hs a e1 he1
  exact ⟨e2, he2, fun hu => hu2 (hu1 hu)⟩

lemma Backs.of_edit {va : Nat} {up : Nat → Nat} (he : Edit pl roots held up (At r va) pl')
    (hbyte : ∀ a, path a = path va → byteAt pl'.phys r a = byteAt pl.phys r a)
    (hleaf : ∀ a e, path a = path va → leaf pl.phys r a = some e →
      ∃ e', leaf pl'.phys r a = some e' ∧ (Pte.user e = true → Pte.user e' = true)) :
    Backs roots pl pl' := by
  refine ⟨fun s hs a => ?_, fun s hs a e hl => ?_⟩
  · by_cases hat : At r va s a
    · obtain ⟨rfl, hpath⟩ := hat
      exact hbyte a hpath
    · exact byteAt_congr (he.view_eq s hs a hat)
  by_cases hat : At r va s a
  · obtain ⟨rfl, hpath⟩ := hat
    exact hleaf a e hpath hl
  · exact ⟨e, (he.leaf_eq hs hat).trans hl, id⟩

lemma Backs.of_nowhere {up : Nat → Nat} (he : Edit pl roots held up Nowhere pl') :
    Backs roots pl pl' :=
  ⟨fun s hs a => byteAt_congr (he.view_eq s hs a id),
    fun _ hs _ e hl => ⟨e, (he.leaf_eq hs id).trans hl, id⟩⟩

lemma ensureBacked_backs (h : Good pl roots held) (hs : Rooted roots s r) {va : Nat}
    (hva : va % 4096 = 0) (prot : Prot) {ok : Bool} (hres : ensureBacked s prot pl va = (ok, pl')) :
    Good pl' roots held ∧ Backs roots pl pl' ∧ (ok = true → leaf pl'.phys r va ≠ none) := by
  have hspec := ensureBacked_spec h hs hva prot
  rw [hres] at hspec
  cases ok with
  | false => exact ⟨hspec.1.good, .of_nowhere hspec.1, nofun⟩
  | true =>
    obtain ⟨hedit, ⟨rfl, hne⟩ | ⟨hnone, -, f, -, -, -, hview⟩⟩ := hspec
    · exact ⟨hedit.good, .refl roots pl', fun _ => hne⟩
    refine ⟨hedit.good, .of_edit hedit (fun a hpath => ?_) (fun a e hpath hl => ?_), fun _ hl => ?_⟩
    · -- the new page is zero, and that is how it read
      rw [byteAt, byteAt, view_of_path _ r hpath, view_of_path _ r hpath, hview,
        view_none.mpr hnone]
    · rw [leaf, hpath] at hl
      rw [leaf] at hnone
      rw [hnone] at hl
      cases hl
    · rw [view_none.mpr hl] at hview
      cases hview

lemma makeWritable_backs (h : Good pl roots held) (hs : Rooted roots s r) {va : Nat}
    (hva : va % 4096 = 0) (prot : Prot) (sharedAnon : Bool) {res : Except MemError Bool}
    (hres : makeWritable s prot pl va sharedAnon = (res, pl')) :
    Good pl' roots held ∧ Backs roots pl pl' := by
  have hspec := makeWritable_spec h hs hva prot sharedAnon
  rw [hres] at hspec
  cases res with
  | error e => exact ⟨hspec.2.good, .of_nowhere hspec.2⟩
  | ok changed =>
    obtain ⟨-, hedit, hw⟩ := hspec
    refine ⟨hedit.good, ?_⟩
    cases hv : view pl.phys r va with
    | none =>
      rw [hw.absent (view_none.mp hv)]
      exact .refl roots pl
    | some eb =>
      obtain ⟨e, b⟩ := eb
      obtain ⟨f, hf, hview, -⟩ := hw.page e b hv
      refine .of_edit hedit (fun a hpath => ?_) (fun a e' hpath hl => ?_)
      · rw [byteAt, byteAt, view_of_path _ r hpath, view_of_path _ r hpath, hview, hv]
      refine ⟨Pte.make (f * 4096) (leafFlags prot false), ?_, fun _ => ?_⟩
      · rw [leaf_eq_view, view_of_path _ r hpath, hview]
        rfl
      · rw [Pte.user_make hf, Pte.user_leafFlags]
        rfl

lemma backPages_backs (hs : Rooted roots g.space r) (hb : g.base % 4096 = 0) (ps : List Nat) :
    ∀ {pl pl' : Pool} {changed : Bool} {res : Except MemError Bool}, Good pl roots held →
      g.backPages ps changed pl = (res, pl') → Good pl' roots held ∧ Backs roots pl pl' ∧
        (res.isOk = true → ∀ p ∈ ps, leaf pl'.phys r (g.pageBase p) ≠ none) := by
  induction ps with
  | nil =>
    intro pl pl' changed res h hres
    cases hres
    exact ⟨h, .refl roots pl, fun _ _ hp => absurd hp List.not_mem_nil⟩
  | cons p ps ih =>
    intro pl pl' changed res h hres
    unfold backPages at hres
    cases hone : ensureBacked g.space (g.prot p) pl (g.pageBase p) with
    | mk ok pl1 =>
      obtain ⟨hg1, hb1, hleaf⟩ := ensureBacked_backs h hs (pageBase_mod hb p) _ hone
      simp only [hone] at hres
      cases ok with
      | false =>
        cases hres
        exact ⟨hg1, hb1, fun hok => by cases hok⟩
      | true =>
        cases htwo : makeWritable g.space (g.prot p) pl1 (g.pageBase p)
            (g.sharedAnon p) with
        | mk res2 pl2 =>
          obtain ⟨hg2, hb2⟩ := makeWritable_backs hg1 hs (pageBase_mod hb p) _ _ htwo
          simp only [htwo] at hres
          cases res2 with
          | error e =>
            cases hres
            exact ⟨hg2, hb1.trans hb2, fun hok => by cases hok⟩
          | ok c =>
            obtain ⟨hg3, hb3, hrest⟩ := ih hg2 hres
            refine ⟨hg3, hb1.trans (hb2.trans hb3), fun hok q hq => ?_⟩
            rcases List.mem_cons.mp hq with rfl | hq
            · obtain ⟨e, he⟩ := ne_none_iff_exists'.mp (hleaf rfl)
              have hr := hg1.mem_of_leaf hs he
              obtain ⟨e', he', -⟩ := (hb2.trans hb3).stays r hr _ e he
              rw [he']
              exact some_ne_none e'
            · exact hrest hok q hq

lemma exists_page {addr len k : Nat} {q : Nat × Nat} (hb : g.base % 4096 = 0)
    (hq : g.pageRange addr len = .ok q) (hk : k < len) :
    ∃ p ∈ pagesOf q, path (addr + k) = path (g.pageBase p) := by
  have ⟨hfirst, hlast⟩ := pageRange_eq hq
  have hone := pageIndex_eq hfirst
  have htwo := pageIndex_eq hlast
  refine ⟨(addr + k - g.base) / 4096, mem_pagesOf.mpr ?_, path_of_div ?_⟩
  · omega
  unfold pageBase
  omega

section

variable (h : Good pl roots held) (hs : Rooted roots g.space r) (hb : g.base % 4096 = 0)
include h hs hb

lemma storeRange_failed {addr : Nat} {buf : List Byte} {q : Nat × Nat}
    (hq : g.pageRange addr buf.length = .ok q) {o : GuestMemory.Outcome}
    (ho : g.storeRange q addr buf pl = o) (herr : o.1.isOk = false) :
    o.2.1 = g ∧ Good o.2.2 roots held ∧ Backs roots pl o.2.2 := by
  unfold storeRange at ho
  cases hone : g.backPages (pagesOf q) false pl with
  | mk res pl1 =>
    obtain ⟨hg1, hb1, hleaf⟩ := backPages_backs hs hb _ h hone
    simp only [hone] at ho
    cases res with
    | error e =>
      subst ho
      exact ⟨rfl, hg1, hb1⟩
    | ok changed =>
      have hall : ∀ k, k < buf.length → leaf pl1.phys r (addr + k) ≠ none := by
        intro k hk
        obtain ⟨p, hp, hpath⟩ := exists_page hb hq hk
        rw [leaf, hpath]
        exact hleaf rfl p hp
      have hok : (copyChunks g.space buf.length addr buf pl1).1.isOk = true := by
        by_cases hnil : buf = []
        · subst hnil
          rfl
        obtain ⟨e, he⟩ := ne_none_iff_exists'.mp (hall 0 (List.length_pos_iff.mpr hnil))
        have hr := hg1.mem_of_leaf hs he
        rw [copyChunks_eq hr hs.pml4 _ addr buf hg1 (le_rfl) hall]
        rfl
      subst ho
      exact absurd (hok.symm.trans herr) (by decide)

/-- **Stores that fail.** -/
lemma write_failed {addr : Nat} {buf : List Byte} {o : GuestMemory.Outcome}
    (ho : g.write addr buf pl = o) (herr : o.1.isOk = false) :
    o.2.1 = g ∧ Good o.2.2 roots held ∧ Backs roots pl o.2.2 := by
  unfold write at ho
  split at ho
  · subst ho
    cases herr
  split at ho
  · subst ho
    exact ⟨rfl, h, .refl roots pl⟩
  unfold copyIn at ho
  split at ho
  · subst ho
    exact ⟨rfl, h, .refl roots pl⟩
  next q hq => exact storeRange_failed h hs hb hq ho herr

lemma writeInit_failed {addr : Nat} {buf : List Byte} {o : GuestMemory.Outcome}
    (ho : g.writeInit addr buf pl = o) (herr : o.1.isOk = false) :
    o.2.1 = g ∧ Good o.2.2 roots held ∧ Backs roots pl o.2.2 := by
  unfold writeInit at ho
  split at ho
  · subst ho
    exact ⟨rfl, h, .refl roots pl⟩
  rename_i q hq
  split at ho
  · subst ho
    exact ⟨rfl, h, .refl roots pl⟩
  · exact storeRange_failed h hs hb hq ho herr

end

lemma leafProt_read (e : BitVec 64) : (leafProt e).contains .read = true := by
  unfold leafProt
  cases Pte.writable e <;> cases Pte.noExec e <;> decide

section

variable (hb : Backs roots pl pl') (h : Good pl roots held)
include hb h

lemma Backs.translate
    (hs : Rooted roots s r) {va : Nat} {t : Translation} (ht : s.translate va pl.phys = some t)
    (hopen : (!t.supervisor && t.prot.contains .read) = true) :
    ∃ t', s.translate va pl'.phys = some t' ∧ (!t'.supervisor && t'.prot.contains .read) = true := by
  rw [translate_eq hs.pml4] at ht ⊢
  obtain ⟨e, he, rfl⟩ := map_eq_some_iff.mp ht
  have ⟨e', he', huser⟩ := hb.stays r (h.mem_of_leaf hs he) va e he
  refine ⟨translationOf e' va, by rw [he', map_some], ?_⟩
  have hu : Pte.user e = true := by
    simpa [translationOf, leafProt_read] using hopen
  simp [translationOf, leafProt_read, huser hu]

lemma checkPagedLoop_ok (hs : Rooted roots g.space r) (addr : Nat) (pages : List Nat) :
    g.checkPagedLoop pl addr .read pages = .ok () →
      g.checkPagedLoop pl' addr .read pages = .ok () := by
  induction pages with
  | nil => exact id
  | cons cur pages ih =>
    intro hok
    unfold checkPagedLoop at hok ⊢
    split at hok
    next t ht =>
      split at hok
      next hopen =>
        have ⟨t', ht', hopen'⟩ := hb.translate h hs ht hopen
        simp only [ht', hopen', if_true]
        exact ih hok
      · cases hok
    · cases hok

lemma check_ok
    (hs : Rooted roots g.space r) {addr len : Nat} (hok : g.check pl addr len .read = .ok ()) :
    g.check pl' addr len .read = .ok () := by
  unfold check at hok ⊢
  split at hok
  · cases hok
  rename_i hfit
  rw [if_neg hfit]
  split at hok
  next hout =>
    rw [if_pos hout]
    unfold checkPaged at hok ⊢
    dsimp only at hok ⊢
    split at hok
    · cases hok
    rename_i hloop
    rw [checkPagedLoop_ok hb h hs addr _ hloop]
    exact hok
  next hin =>
    rw [if_neg hin]
    exact hok

lemma Backs.read (h' : Good pl' roots held)
    (hs : Rooted roots g.space r) {addr len : Nat} {bs : List Byte}
    (hread : g.read pl addr len = .ok bs) : g.read pl' addr len = .ok bs := by
  have hbytes : ∀ a, byteAt pl'.phys r a = byteAt pl.phys r a := by
    intro a
    rcases hs.mem with rfl | hr
    · rw [byteAt, byteAt, view_none.mpr (h.leaf_null a), view_none.mpr (h'.leaf_null a)]
    · exact hb.bytes r hr a
  unfold GuestMemory.read at hread ⊢
  split at hread
  next h0 =>
    rw [if_pos h0]
    exact hread
  rename_i h0
  rw [if_neg h0]
  split at hread
  · cases hread
  rename_i hok
  rw [check_ok hb h hs hok]
  cases hread
  simp only [copyOut_eq hs.pml4 _ len addr len (le_rfl), hbytes]

end

end Backing

namespace Sys

/-- **Failed stores change nothing.** From every state of a run whose `map_frames` calls keep a
reference to each frame, a store that fails leaves all spaces, and what is read in them, as
before. -/
theorem failed_store_unseen {ceiling : Nat} {image : Nat → Byte} {base vsize physBytes : Nat}
    {s₀ s s' : Sys} (hboot : boot ceiling image base vsize physBytes = some s₀)
    (hrun : Relation.ReflTransGen (Next Lawful) s₀ s) {i : Nat} {c : Call}
    (hc : ∃ addr buf, c = .write addr buf ∨ c = .writeInit addr buf)
    (hs : s.step (.call i c) = some (false, s')) :
    ∀ (j : Nat) g, s.spaces[j]? = some g → s'.spaces[j]? = some g ∧
      ∀ a len bs, g.read s.pool a len = .ok bs → g.read s'.pool a len = .ok bs := by
  obtain ⟨roots, lost, hsane⟩ := Sane.run hboot hrun
  simp only [Sys.step] at hs
  split at hs
  · cases hs
  rename_i g hi
  obtain ⟨d, hd, heq⟩ := Option.map_eq_some_iff.mp hs
  obtain ⟨r, hr⟩ := hsane.rooted i g hi
  have hfailed : d.1 = false → d.2.1 = g ∧ Good d.2.2 roots (bumps lost s.held) ∧
      Backs roots s.pool d.2.2 := by
    intro hfalse
    obtain ⟨addr, buf, rfl | rfl⟩ := hc
    · cases hd
      exact write_failed hsane.good hr (hsane.base i g hi).1 rfl hfalse
    · cases hd
      exact writeInit_failed hsane.good hr (hsane.base i g hi).1 rfl hfalse
  obtain ⟨hfalse, rfl⟩ := Prod.mk.inj heq
  obtain ⟨hsame, hgood, hbacks⟩ := hfailed hfalse
  intro j g₁ hj
  refine ⟨?_, fun a len bs hread => ?_⟩
  · show (s.spaces.set i d.2.1)[j]? = some g₁
    rw [hsame, List.getElem?_set]
    split
    next hij =>
      subst hij
      rw [hi] at hj
      cases hj
      rw [if_pos (List.getElem?_eq_some_iff.mp hi).1]
    · exact hj
  · obtain ⟨x, hx⟩ := hsane.rooted j g₁ hj
    exact hbacks.read hsane.good hgood hx hread

lemma ok_of_toOption {ε α : Type} {r : Except ε α} {a : α} (h : r.toOption = some a) :
    r = .ok a := by
  cases r with
  | error e => cases h
  | ok b =>
    cases h
    rfl

theorem failed_store_unseen_exhausted : ∃ s₀ s s' g,
    boot (2 ^ 30) (fun _ => 0) 65536 65536 16384 = some s₀ ∧
    steps [.call 0 (.map 65536 16384 .rw), .call 0 (.write 77824 [7]), .allocFrames 59] s₀ =
      some s ∧ s.step (.call 0 (.write 69631 [1, 2])) = some (false, s') ∧ s.spaces[0]? = some g ∧
    s'.spaces[0]? = some g ∧ g.read s.pool 77824 1 = .ok [7] ∧ g.read s'.pool 77824 1 = .ok [7] := by
  obtain ⟨s₀, s, hboot, hsteps, h⟩ := exists_of_steps
    (boot (2 ^ 30) (fun _ => 0) 65536 65536 16384)
    [.call 0 (.map 65536 16384 .rw), .call 0 (.write 77824 [7]), .allocFrames 59]
    (P := fun s : Sys => (s.spaces[0]?.any fun g : GuestMemory =>
        decide ((g.read s.pool 77824 1).toOption = some [7])) &&
      (s.step (.call 0 (.write 69631 [1, 2]))).any fun r => !r.1)
    (by decide +kernel)
  obtain ⟨hany, hfail⟩ := Bool.and_eq_true_iff.mp h
  obtain ⟨g, hg, hread⟩ := (Option.any_eq_true ..).mp hany
  obtain ⟨⟨b, s'⟩, hs, hb⟩ := (Option.any_eq_true ..).mp hfail
  obtain rfl : b = false := by simpa using hb
  have hread := ok_of_toOption (of_decide_eq_true hread)
  have hreach := reach_of_steps Lawful _ (fun op hop s => by
    fin_cases hop <;> exact trivial) hsteps
  obtain ⟨hsame, hall⟩ := failed_store_unseen hboot hreach ⟨69631, [1, 2], .inl rfl⟩ hs 0 g hg
  exact ⟨s₀, s, s', g, hboot, hsteps, hs, hg, hsame, hread, hall 77824 1 [7] hread⟩

/-- Once `map_frames` has put a frame over itself, the frame is mapped and free: a store that fails
on its second page has cleared it for the first. -/
theorem failed_store_seen : ∃ s₀ s s' g g',
    boot (2 ^ 30) (fun _ => 0) 65536 65536 16384 = some s₀ ∧
    Relation.ReflTransGen (Next fun _ _ => True) s₀ s ∧
    s.step (.call 0 (.write 69631 [1, 2])) = some (false, s') ∧
    s.spaces[0]? = some g ∧ g.read s.pool 81919 1 = .ok [7] ∧
    s'.spaces[0]? = some g' ∧ g'.read s'.pool 81919 1 = .ok [0] := by
  obtain ⟨s₀, s, hboot, hsteps, h⟩ := exists_of_steps
    (boot (2 ^ 30) (fun _ => 0) 65536 65536 16384)
    [.call 0 (.mapSharedAnon 77824 8192 .rw), .call 0 (.map 65536 8192 .rw),
      .call 0 (.write 81919 [7, 8]), .allocFrames 59, .call 0 (.mapFrames 77824 [53248] .rw)]
    (P := fun s : Sys => (s.spaces[0]?.any fun g : GuestMemory =>
        decide ((g.read s.pool 81919 1).toOption = some [7])) &&
      (s.step (.call 0 (.write 69631 [1, 2]))).any fun r => !r.1 &&
        r.2.spaces[0]?.any fun g : GuestMemory =>
          decide ((g.read r.2.pool 81919 1).toOption = some [0]))
    (by decide +kernel)
  obtain ⟨hany, hfail⟩ := Bool.and_eq_true_iff.mp h
  obtain ⟨g, hg, hread⟩ := (Option.any_eq_true ..).mp hany
  obtain ⟨⟨b, s'⟩, hs, hb⟩ := (Option.any_eq_true ..).mp hfail
  obtain ⟨hb, hany'⟩ := Bool.and_eq_true_iff.mp hb
  obtain rfl : b = false := by simpa using hb
  obtain ⟨g', hg', hread'⟩ := (Option.any_eq_true ..).mp hany'
  exact ⟨s₀, s, s', g, g', hboot, reach_of_steps _ _ (fun _ _ _ => trivial) hsteps, hs, hg,
    ok_of_toOption (of_decide_eq_true hread), hg', ok_of_toOption (of_decide_eq_true hread')⟩

end Sys

end NixVm
